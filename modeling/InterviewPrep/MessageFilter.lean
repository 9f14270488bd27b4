/-
The duplicate filter of microsoft/securityPosition/deduplication.cpp (`MessageFilter`).

`filter` forwards a message that it has not seen, or whose last forwarding is at least `cooldownSeconds` ago, and stores the
time of forwarding under the hash of the message only. Times are integer nanoseconds of a steady clock; `duration_cast`
truncates the age to seconds.

- `forwarded_iff`: for every sequence of calls, a message is forwarded exactly if every forwarding so far of a message of the same
  hash is at least `cooldownSeconds` ago; so two forwardings of one hash are at least that far apart;
- `exact_iff`: with a positive `cooldownSeconds` the filter answers every sequence of calls with messages of a set like one that
  compares the messages themselves if and only if no two of the set have the same hash; of two that have, the second is
  suppressed though it was never forwarded.
-/
import InterviewPrep.Core.Machine

namespace InterviewPrep.MessageFilter

/-! ## Model -/

/-- `duration_cast<seconds>(now - t).count()` -/
def elapsed (now t : ℤ) : ℤ := (now - t).tdiv 1000000000

variable {Msg Hash : Type} [DecidableEq Hash]

/-- the map and the answer; `call` is the time and the message -/
def filter (cooldownSeconds : ℤ) (hash : Msg → Hash) (lastSeen : Hash → Option ℤ) (call : ℤ × Msg) :
    (Hash → Option ℤ) × Bool :=
  match lastSeen (hash call.2) with
  | none => (Function.update lastSeen (hash call.2) (some call.1), true)
  | some t =>
    if cooldownSeconds ≤ elapsed call.1 t then (Function.update lastSeen (hash call.2) (some call.1), true) else (lastSeen, false)

def run (cooldownSeconds : ℤ) (hash : Msg → Hash) (calls : List (ℤ × Msg)) : (Hash → Option ℤ) × List Bool :=
  Machine.runTotal (filter cooldownSeconds hash) (fun _ => none) calls

/-- the calls that are forwarded -/
def forwarded (cooldownSeconds : ℤ) (hash : Msg → Hash) (calls : List (ℤ × Msg)) : List (ℤ × Msg) :=
  ((calls.zip (run cooldownSeconds hash calls).2).filter Prod.snd).map Prod.fst

/-- the answer to a call after others -/
def answer (cooldownSeconds : ℤ) (hash : Msg → Hash) (calls : List (ℤ × Msg)) (call : ℤ × Msg) : Bool :=
  (filter cooldownSeconds hash (run cooldownSeconds hash calls).1 call).2

/-! ## What is forwarded -/

variable {cooldownSeconds : ℤ} {hash : Msg → Hash} {calls : List (ℤ × Msg)} {call : ℤ × Msg}

theorem le_elapsed {now t : ℤ} (h : t ≤ now) : cooldownSeconds ≤ elapsed now t ↔ cooldownSeconds * 1000000000 ≤ now - t := by
  rw [elapsed, Int.tdiv_eq_ediv_of_nonneg (by omega)]
  omega

theorem run_concat (calls : List (ℤ × Msg)) (call : ℤ × Msg) : run cooldownSeconds hash (calls ++ [call]) =
    ((filter cooldownSeconds hash (run cooldownSeconds hash calls).1 call).1,
      (run cooldownSeconds hash calls).2 ++ [answer cooldownSeconds hash calls call]) :=
  Machine.runTotal_concat ..

theorem length_run (calls : List (ℤ × Msg)) : (run cooldownSeconds hash calls).2.length = calls.length := by
  induction calls using List.reverseRecOn with
  | nil => rfl
  | append_singleton calls call ih => rw [run_concat, List.length_append, List.length_append, ih]; rfl

theorem forwarded_concat (calls : List (ℤ × Msg)) (call : ℤ × Msg) : forwarded cooldownSeconds hash (calls ++ [call]) =
    forwarded cooldownSeconds hash calls ++ if answer cooldownSeconds hash calls call = true then [call] else [] := by
  rw [forwarded, run_concat, List.zip_append (length_run calls).symm, List.filter_append, List.map_append, forwarded]
  congr 1
  cases answer cooldownSeconds hash calls call <;> rfl

theorem forwarded_subset : ∀ e ∈ forwarded cooldownSeconds hash calls, e ∈ calls := by
  intro e he
  obtain ⟨p, hp, rfl⟩ := List.mem_map.1 he
  exact (List.of_mem_zip (List.mem_of_mem_filter hp)).1

/-- the map has the last forwarding of each hash -/
structure Inv (cooldownSeconds : ℤ) (hash : Msg → Hash) (lastSeen : Hash → Option ℤ) (log : List (ℤ × Msg)) : Prop where
  unseen : ∀ h, lastSeen h = none → ∀ e ∈ log, hash e.2 ≠ h
  seen : ∀ h t, lastSeen h = some t → (∃ e ∈ log, hash e.2 = h ∧ e.1 = t) ∧ ∀ e ∈ log, hash e.2 = h → e.1 ≤ t
  apart : log.Pairwise fun a b => hash a.2 = hash b.2 → cooldownSeconds * 1000000000 ≤ b.1 - a.1

/-- all forwardings are far enough ago -/
def Due (cooldownSeconds : ℤ) (hash : Msg → Hash) (log : List (ℤ × Msg)) (call : ℤ × Msg) : Prop :=
  ∀ e ∈ log, hash e.2 = hash call.2 → cooldownSeconds * 1000000000 ≤ call.1 - e.1

variable {lastSeen : Hash → Option ℤ} {log : List (ℤ × Msg)}

omit [DecidableEq Hash] in
/-- the last forwarding decides for all -/
theorem Inv.due_iff (hs : Inv cooldownSeconds hash lastSeen log) {t : ℤ} (ht : lastSeen (hash call.2) = some t)
    (hnow : ∀ e ∈ log, e.1 ≤ call.1) : cooldownSeconds ≤ elapsed call.1 t ↔ Due cooldownSeconds hash log call := by
  obtain ⟨⟨e, he, hhash, rfl⟩, hlast⟩ := hs.seen _ t ht
  rw [le_elapsed (hnow e he)]
  refine ⟨fun hage f hf hsame => ?_, fun hdue => hdue e he hhash⟩
  have hle := hlast f hf hsame
  omega

theorem filter_iff (hs : Inv cooldownSeconds hash lastSeen log) (hnow : ∀ e ∈ log, e.1 ≤ call.1) :
    (filter cooldownSeconds hash lastSeen call).2 = true ↔ Due cooldownSeconds hash log call := by
  rw [filter]
  split
  · rename_i hnone
    exact iff_of_true rfl fun e he hsame => absurd hsame (hs.unseen _ hnone e he)
  · rename_i t ht
    rw [← hs.due_iff ht hnow]
    split_ifs with hage
    · exact iff_of_true rfl hage
    · exact iff_of_false (by simp) hage

/-- the call is forwarded, or nothing changes -/
theorem filter_cases (cooldownSeconds : ℤ) (hash : Msg → Hash) (lastSeen : Hash → Option ℤ) (call : ℤ × Msg) :
    filter cooldownSeconds hash lastSeen call = (Function.update lastSeen (hash call.2) (some call.1), true) ∨
      filter cooldownSeconds hash lastSeen call = (lastSeen, false) := by
  unfold filter
  split
  · exact Or.inl rfl
  · split_ifs
    · exact Or.inl rfl
    · exact Or.inr rfl

theorem Inv.forward (hs : Inv cooldownSeconds hash lastSeen log) (hnow : ∀ e ∈ log, e.1 ≤ call.1)
    (hdue : Due cooldownSeconds hash log call) :
    Inv cooldownSeconds hash (Function.update lastSeen (hash call.2) (some call.1)) (log ++ [call]) where
  unseen h hh e he hhash := by
    rcases eq_or_ne h (hash call.2) with rfl | hne
    · rw [Function.update_self] at hh
      cases hh
    · rw [Function.update_of_ne hne] at hh
      rcases List.mem_append.1 he with he | he
      · exact hs.unseen h hh e he hhash
      · exact hne (by rw [← hhash, List.mem_singleton.1 he])
  seen h t ht := by
    rcases eq_or_ne h (hash call.2) with rfl | hne
    · rw [Function.update_self] at ht
      obtain rfl := Option.some.inj ht
      refine ⟨⟨call, by simp, rfl, rfl⟩, fun e he _ => ?_⟩
      rcases List.mem_append.1 he with he | he
      · exact hnow e he
      · rw [List.mem_singleton.1 he]
    · rw [Function.update_of_ne hne] at ht
      obtain ⟨⟨e, he, hhash, htime⟩, hlast⟩ := hs.seen h t ht
      refine ⟨⟨e, List.mem_append_left _ he, hhash, htime⟩, fun f hf hsame => ?_⟩
      rcases List.mem_append.1 hf with hf | hf
      · exact hlast f hf hsame
      · exact absurd (by rw [← hsame, List.mem_singleton.1 hf]) hne
  apart := by
    refine List.pairwise_append.2 ⟨hs.apart, List.pairwise_singleton _ _, fun a ha b hb hsame => ?_⟩
    obtain rfl := List.mem_singleton.1 hb
    exact hdue a ha hsame

theorem filter_inv (hs : Inv cooldownSeconds hash lastSeen log) (hnow : ∀ e ∈ log, e.1 ≤ call.1) :
    Inv cooldownSeconds hash (filter cooldownSeconds hash lastSeen call).1
      (log ++ if (filter cooldownSeconds hash lastSeen call).2 = true then [call] else []) := by
  have hiff := filter_iff hs hnow
  rcases filter_cases cooldownSeconds hash lastSeen call with heq | heq
  · rw [heq] at hiff ⊢
    rw [if_pos rfl]
    exact hs.forward hnow (hiff.1 rfl)
  · rw [heq, if_neg Bool.false_ne_true, List.append_nil]
    exact hs

theorem run_inv (hmono : (calls.map Prod.fst).Pairwise (· ≤ ·)) :
    Inv cooldownSeconds hash (run cooldownSeconds hash calls).1 (forwarded cooldownSeconds hash calls) := by
  induction calls using List.reverseRecOn with
  | nil => exact ⟨fun _ _ _ he => (by cases he), fun _ _ h => (by cases h), List.Pairwise.nil⟩
  | append_singleton calls call ih =>
    rw [List.map_append, List.pairwise_append] at hmono
    rw [run_concat, forwarded_concat]
    refine filter_inv (ih hmono.1) fun e he => ?_
    exact hmono.2.2 e.1 (List.mem_map_of_mem (forwarded_subset e he)) call.1 (by simp)

/-- **What is forwarded.** For every sequence of calls at times that do not decrease, and a call after them: the message is
forwarded exactly if every message of the same hash that has been forwarded so far was forwarded at least `cooldownSeconds` ago.
Of the messages forwarded, two of the same hash are at least that far apart. -/
theorem forwarded_iff (cooldownSeconds : ℤ) (hash : Msg → Hash) (calls : List (ℤ × Msg)) (call : ℤ × Msg)
    (hmono : ((calls ++ [call]).map Prod.fst).Pairwise (· ≤ ·)) :
    (answer cooldownSeconds hash calls call = true ↔ ∀ e ∈ forwarded cooldownSeconds hash calls,
        hash e.2 = hash call.2 → cooldownSeconds * 1000000000 ≤ call.1 - e.1) ∧
      (forwarded cooldownSeconds hash (calls ++ [call])).Pairwise fun a b =>
        hash a.2 = hash b.2 → cooldownSeconds * 1000000000 ≤ b.1 - a.1 := by
  refine ⟨?_, (run_inv hmono).apart⟩
  rw [List.map_append, List.pairwise_append] at hmono
  refine filter_iff (run_inv hmono.1) fun e he => ?_
  exact hmono.2.2 e.1 (List.mem_map_of_mem (forwarded_subset e he)) call.1 (by simp)

/-- as in `main`, a second apart: the last call is 3 seconds after the first -/
def repeated : List (ℤ × ℕ) := [(0, 1), (1000000000, 2), (2000000000, 1)]

theorem forwarded_iff_repeated : answer 3 id repeated (3000000000, 1) = true ∧
    (∀ e ∈ forwarded 3 id repeated, id e.2 = id 1 → (3 : ℤ) * 1000000000 ≤ 3000000000 - e.1) :=
  ⟨by decide, (forwarded_iff 3 id repeated (3000000000, 1) (by decide)).1.1 (by decide)⟩

/-! ## The hash -/

variable [DecidableEq Msg] {S : Set Msg}

/-- two maps with the same times for the messages of `S` -/
def SameTimes (S : Set Msg) (hash : Msg → Hash) (exact : Msg → Option ℤ) (lastSeen : Hash → Option ℤ) : Prop :=
  ∀ m ∈ S, exact m = lastSeen (hash m)

theorem filter_same (cooldownSeconds : ℤ) (hinj : Set.InjOn hash S) (hcall : call.2 ∈ S) {exact : Msg → Option ℤ}
    (hsame : SameTimes S hash exact lastSeen) :
    (filter cooldownSeconds id exact call).2 = (filter cooldownSeconds hash lastSeen call).2 ∧
      SameTimes S hash (filter cooldownSeconds id exact call).1 (filter cooldownSeconds hash lastSeen call).1 := by
  have hupdate : SameTimes S hash (Function.update exact call.2 (some call.1))
      (Function.update lastSeen (hash call.2) (some call.1)) := by
    intro m hm
    rcases eq_or_ne m call.2 with rfl | hne
    · rw [Function.update_self, Function.update_self]
    · rw [Function.update_of_ne hne, Function.update_of_ne (hinj.ne hm hcall hne), hsame m hm]
  unfold filter
  rw [id_eq, hsame call.2 hcall]
  split
  · exact ⟨rfl, hupdate⟩
  · split_ifs
    · exact ⟨rfl, hupdate⟩
    · exact ⟨rfl, hsame⟩

theorem run_same (hinj : Set.InjOn hash S) (calls : List (ℤ × Msg)) (hcalls : ∀ call ∈ calls, call.2 ∈ S) :
    (run cooldownSeconds id calls).2 = (run cooldownSeconds hash calls).2 ∧
      SameTimes S hash (run cooldownSeconds id calls).1 (run cooldownSeconds hash calls).1 := by
  induction calls using List.reverseRecOn with
  | nil => exact ⟨rfl, fun _ _ => rfl⟩
  | append_singleton calls call ih =>
    have hbefore := ih fun e he => hcalls e (List.mem_append_left _ he)
    obtain ⟨hanswer, hnext⟩ :=
      filter_same cooldownSeconds hinj (hcalls call (List.mem_append_right _ (List.mem_singleton_self call))) hbefore.2
    rw [run_concat, run_concat, hbefore.1]
    exact ⟨by rw [answer, answer, hanswer], hnext⟩

omit [DecidableEq Msg] in
/-- the second of two messages, soon after the first -/
theorem answer_second (cooldownSeconds : ℤ) (hash : Msg → Hash) (m m' : Msg) {t t' : ℤ} (hle : t ≤ t')
    (hsoon : t' - t < cooldownSeconds * 1000000000) :
    answer cooldownSeconds hash [(t, m)] (t', m') = true ↔ hash m' ≠ hash m := by
  have hage : ¬cooldownSeconds ≤ elapsed t' t := by
    rw [le_elapsed hle]
    omega
  rcases eq_or_ne (hash m') (hash m) with heq | hne
  · simp [answer, run, Machine.runTotal, filter, heq, hage]
  · simp [answer, run, Machine.runTotal, filter, hne]

/-- the last answer, from all of them -/
theorem answer_of_run {calls : List (ℤ × Msg)} {other : Msg → Msg} (hcalls : (run cooldownSeconds hash (calls ++ [call])).2 =
    (run cooldownSeconds other (calls ++ [call])).2) :
    answer cooldownSeconds hash calls call = answer cooldownSeconds other calls call := by
  rw [run_concat, run_concat] at hcalls
  exact List.singleton_inj.1 (List.append_inj_right' hcalls rfl)

theorem exact_on_iff (hpos : 0 < cooldownSeconds) (hash : Msg → Hash) (S : Set Msg) :
    (∀ calls : List (ℤ × Msg), (∀ call ∈ calls, call.2 ∈ S) →
      (run cooldownSeconds hash calls).2 = (run cooldownSeconds id calls).2) ↔ Set.InjOn hash S := by
  refine ⟨fun hall m hm m' hm' hsame => ?_, fun hinj calls hcalls => (run_same hinj calls hcalls).1.symm⟩
  by_contra hne
  have hsoon : (0 : ℤ) - 0 < cooldownSeconds * 1000000000 := by omega
  have hcalls := answer_of_run (hall ([(0, m)] ++ [(0, m')]) (by simp [hm, hm']))
  exact ((answer_second cooldownSeconds hash m m' le_rfl hsoon).1
    (hcalls.trans ((answer_second cooldownSeconds id m m' le_rfl hsoon).2 (Ne.symm hne)))) hsame.symm

/-- **Only collisions matter.** Where `cooldownSeconds` is positive, the filter answers every sequence of calls as if it compared
the messages themselves if and only if no two messages have the same hash; and every sequence of calls with messages of a set if
and only if no two of the set have. With a collision a message that was never forwarded is suppressed, for `cooldownSeconds`
after the other. -/
theorem exact_iff (cooldownSeconds : ℤ) (hpos : 0 < cooldownSeconds) (hash : Msg → Hash) :
    ((∀ calls, (run cooldownSeconds hash calls).2 = (run cooldownSeconds id calls).2) ↔ Function.Injective hash) ∧
      (∀ S : Set Msg, (∀ calls : List (ℤ × Msg), (∀ call ∈ calls, call.2 ∈ S) →
        (run cooldownSeconds hash calls).2 = (run cooldownSeconds id calls).2) ↔ Set.InjOn hash S) ∧
      ∀ m m', m ≠ m' → hash m = hash m' → ∀ t t', t ≤ t' → t' - t < cooldownSeconds * 1000000000 →
        answer cooldownSeconds hash [(t, m)] (t', m') = false ∧ answer cooldownSeconds id [(t, m)] (t', m') = true := by
  refine ⟨?_, exact_on_iff hpos hash, fun m m' hne hsame t t' hle hsoon => ⟨?_, ?_⟩⟩
  · rw [← Set.injOn_univ, ← exact_on_iff hpos hash]
    exact ⟨fun hall calls _ => hall calls, fun hall calls => hall calls fun _ _ => Set.mem_univ _⟩
  · rw [← Bool.not_eq_true, answer_second cooldownSeconds hash m m' hle hsoon]
    exact fun hne' => hne' hsame.symm
  · exact (answer_second cooldownSeconds id m m' hle hsoon).2 (Ne.symm hne)

/-- one of the messages comes again after two seconds -/
def words : List (ℤ × List Char) := [(0, ['a']), (1000000000, ['b', 'c']), (2000000000, ['a'])]

/-- by their length, these are told apart; `a` and `b` are not -/
theorem exact_iff_length : (run 3 List.length words).2 = (run 3 id words).2 ∧ (run 3 id words).2 = [true, true, false] ∧
    answer 3 List.length [((0 : ℤ), ['a'])] (1000000000, ['b']) = false := by
  obtain ⟨-, hset, hcollision⟩ := exact_iff 3 (by decide) (List.length : List Char → ℕ)
  refine ⟨(hset {['a'], ['b', 'c']}).2 ?_ words ?_, by decide, ?_⟩
  · rintro m (rfl | rfl) m' (rfl | rfl) hlength
    all_goals first | rfl | cases hlength
  · simp [words]
  · exact (hcollision ['a'] ['b'] (by decide) rfl 0 1000000000 (by decide) (by decide)).1

end InterviewPrep.MessageFilter
