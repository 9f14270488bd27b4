/-
The shared queue of concurrency/producerConsumer/mutex_cv.cpp, and of the class in mutex_cv_refactor.cpp.

A locked section is one step. A producer pushes its values one after the other, and calls `notify_one` with the lock held. A
consumer waits until the queue is not empty, takes the front and starts over; its loop has no end. Which consumer
`notify_one` wakes is part of the action; consumers may also wake by themselves. The two programs differ in where the value
is printed, with the lock held or after it is released; here it is taken.

- `consumers_wait_forever`: values are taken once and in the order they were pushed; the steps of a run are bounded, but for
  two more with each spurious wake-up; and where no thread can go on, the producers are done, every value has been taken, and
  every consumer sleeps. So the joins of the consumers never return, and no value is left behind.

In mutex.cpp there is no condition variable: a consumer takes what is there at the time, and returns (`Mutex`).

- `Mutex.values_left`: main always returns; what is left then was pushed after the last consumer had the lock.
-/
import InterviewPrep.Core.Condition
import InterviewPrep.Core.Machine
import InterviewPrep.Core.Threads

namespace InterviewPrep.Concurrency.SharedQueue

/-! ## Model -/

structure St (ι κ T : Type) where
  q : List T
  cv : Cond κ
  /-- what a producer has still to push -/
  todo : ι → List T
  /-- what was pushed and by whom, in order -/
  pushed : List (ι × T)
  /-- what was taken and by whom, in order -/
  taken : List (κ × T)

/-- `wakes` is the consumer that `notify_one` picks -/
inductive Act (ι κ : Type) where
  | push (i : ι) (wakes : Option κ)
  | pop (c : κ)
  | resume (c : κ)
  | spurious (c : κ)
  deriving DecidableEq

variable {ι κ T : Type} [DecidableEq ι] [DecidableEq κ]

namespace St

def init (todo : ι → List T) : St ι κ T := ⟨[], Cond.empty, todo, [], []⟩

def setCv (s : St ι κ T) (cv : Cond κ) : St ι κ T := { s with cv := cv }

/-- `push`, up to the notification -/
def push (s : St ι κ T) (i : ι) (v : T) (rest : List T) : St ι κ T :=
  { s with q := s.q ++ [v], todo := Function.update s.todo i rest, pushed := s.pushed ++ [(i, v)] }

def take (s : St ι κ T) (c : κ) (v : T) (rest : List T) : St ι κ T :=
  { s with q := rest, cv := s.cv.leave c, taken := s.taken ++ [(c, v)] }

/-- the body of the loop, from the test of the predicate on -/
def pop (s : St ι κ T) (c : κ) : St ι κ T :=
  match s.q with
  | [] => s.setCv (s.cv.join c)
  | v :: rest => s.take c v rest

end St

def step (s : St ι κ T) : Act ι κ → Option (St ι κ T)
  | .push i wakes =>
    match s.todo i with
    | [] => none
    | v :: rest => (s.cv.notifyOne wakes).map fun cv => (s.push i v rest).setCv cv
  | .pop c => if c ∉ s.cv.busy then some (s.pop c) else none
  | .resume c => if c ∈ s.cv.woken then some (s.pop c) else none
  | .spurious c => if c ∈ s.cv.waiting then some (s.setCv (s.cv.wake c)) else none

def run (todo : ι → List T) (acts : List (Act ι κ)) : Option (St ι κ T) := Machine.exec step (.init todo) acts

/-- what one producer pushed -/
def pushedBy (i : ι) (pushed : List (ι × T)) : List T :=
  pushed.filterMap fun (j, v) => if j = i then some v else none

/-! ## What a step can do -/

/-- a consumer tests the predicate, first or again -/
def Tests (s : St ι κ T) (a : Act ι κ) (c : κ) : Prop :=
  a = .pop c ∧ c ∉ s.cv.busy ∨ a = .resume c ∧ c ∈ s.cv.woken

inductive Effect (s : St ι κ T) : Act ι κ → St ι κ T → Prop
  | pushed {i : ι} {v : T} {rest : List T} {wakes : Option κ} {cv : Cond κ} (htodo : s.todo i = v :: rest)
      (hnotify : s.cv.notifyOne wakes = some cv) : Effect s (.push i wakes) ((s.push i v rest).setCv cv)
  | took {a : Act ι κ} {c : κ} {v : T} {rest : List T} (htests : Tests s a c) (hq : s.q = v :: rest) :
      Effect s a (s.take c v rest)
  | slept {a : Act ι κ} {c : κ} (htests : Tests s a c) (hq : s.q = []) : Effect s a (s.setCv (s.cv.join c))
  | woke {c : κ} (hc : c ∈ s.cv.waiting) : Effect s (.spurious c) (s.setCv (s.cv.wake c))

variable {s s' : St ι κ T} {a : Act ι κ} {c : κ} {todo : ι → List T}

theorem pop_effect (htests : Tests s a c) : Effect s a (s.pop c) := by
  unfold St.pop
  split
  · rename_i hq
    exact .slept htests hq
  · rename_i v rest hq
    exact .took htests hq

theorem step_effect (h : step s a = some s') : Effect s a s' := by
  cases a with
  | push i wakes =>
    rw [step] at h
    split at h
    · cases h
    · rename_i v rest htodo
      obtain ⟨cv, hnotify, rfl⟩ := Option.map_eq_some_iff.1 h
      exact .pushed htodo hnotify
  | pop c =>
    obtain ⟨hidle, heq⟩ := Option.ite_none_right_eq_some.1 h
    obtain rfl := Option.some.inj heq
    exact pop_effect (Or.inl ⟨rfl, hidle⟩)
  | resume c =>
    obtain ⟨hwoken, heq⟩ := Option.ite_none_right_eq_some.1 h
    obtain rfl := Option.some.inj heq
    exact pop_effect (Or.inr ⟨rfl, hwoken⟩)
  | spurious c =>
    obtain ⟨hc, heq⟩ := Option.ite_none_right_eq_some.1 h
    obtain rfl := Option.some.inj heq
    exact .woke hc

/-! ## Invariant -/

structure Inv (todo : ι → List T) (s : St ι κ T) : Prop where
  queue : s.pushed.map Prod.snd = s.taken.map Prod.snd ++ s.q
  todo : ∀ i, pushedBy i s.pushed ++ s.todo i = todo i
  covered : s.cv.Covered s.q.length

omit [DecidableEq κ] in
theorem init_inv : Inv todo (St.init todo : St ι κ T) where
  queue := rfl
  todo _ := rfl
  covered := Cond.covered_of_empty rfl _

theorem pushedBy_concat (i j : ι) (v : T) (pushed : List (ι × T)) :
    pushedBy i (pushed ++ [(j, v)]) = pushedBy i pushed ++ if j = i then [v] else [] := by
  unfold pushedBy
  rw [List.filterMap_append]
  split_ifs with hj <;> simp [hj]

/-- a value goes from what a producer has still to push to what it has pushed -/
theorem pushedBy_push {pushed : List (ι × T)} {rest : ι → List T} {i : ι} {v : T} {l : List T}
    (h : ∀ j, pushedBy j pushed ++ rest j = todo j) (hi : rest i = v :: l) (j : ι) :
    pushedBy j (pushed ++ [(i, v)]) ++ Function.update rest i l j = todo j := by
  rw [pushedBy_concat, ← h j]
  rcases eq_or_ne j i with rfl | hne
  · rw [if_pos rfl, Function.update_self, hi, List.append_assoc, List.singleton_append]
  · rw [if_neg hne.symm, Function.update_of_ne hne, List.append_nil]

omit [DecidableEq ι] in
/-- who tests is awake -/
theorem Tests.awake (h : Tests s a c) : c ∉ s.cv.waiting := by
  rcases h with ⟨-, hidle⟩ | ⟨-, hwoken⟩
  · exact fun hmem => hidle (Cond.mem_busy.2 (Or.inl hmem))
  · exact Finset.disjoint_right.1 s.cv.disjoint hwoken

theorem step_inv (h : Inv todo s) (hstep : step s a = some s') : Inv todo s' := by
  cases step_effect hstep with
  | @pushed i v rest wakes cv htodo hnotify =>
    refine ⟨?_, pushedBy_push h.todo htodo, ?_⟩
    · change (s.pushed ++ [(i, v)]).map Prod.snd = s.taken.map Prod.snd ++ (s.q ++ [v])
      rw [List.map_append, h.queue, List.append_assoc]
      rfl
    · change cv.Covered (s.q ++ [v]).length
      rw [List.length_append, List.length_singleton]
      exact h.covered.notifyOne hnotify
  | @took _ c v rest htests hq =>
    have hcovered := h.covered
    have hqueue := h.queue
    rw [hq] at hcovered hqueue
    refine ⟨?_, h.todo, hcovered.leave c⟩
    change s.pushed.map Prod.snd = (s.taken ++ [(c, v)]).map Prod.snd ++ rest
    rw [hqueue, List.map_append, List.append_assoc]
    rfl
  | @slept _ c htests hq =>
    refine ⟨h.queue, h.todo, ?_⟩
    change (s.cv.join c).Covered s.q.length
    rw [hq]
    exact Cond.covered_zero _
  | @woke c hc => exact ⟨h.queue, h.todo, h.covered.wake c⟩

theorem run_inv {acts : List (Act ι κ)} (hrun : run todo acts = some s) : Inv todo s :=
  Machine.exec_inv (P := Inv todo) (fun _ _ _ hstep h => step_inv h hstep) hrun init_inv

/-! ## How long it takes -/

section Runs

variable [Fintype ι] [Fintype κ]

/-- a value is pushed, wakes a consumer and is taken; each consumer that is awake looks once in vain -/
def potential (s : St ι κ T) : ℕ := 3 * ∑ i, (s.todo i).length + s.q.length + (Fintype.card κ - s.cv.waiting.card)

/-- a thread that wakes up by itself may have to look in vain -/
def Act.extra : Act ι κ → ℕ
  | .spurious _ => 2
  | _ => 0

omit [DecidableEq ι] [Fintype ι] [Fintype κ] in
theorem extra_tests (h : Tests s a c) : a.extra = 0 := by
  rcases h with ⟨rfl, -⟩ | ⟨rfl, -⟩ <;> rfl

theorem step_potential (hstep : step s a = some s') : potential s' + 1 ≤ potential s + a.extra := by
  have hbefore := Finset.card_le_univ s.cv.waiting
  have hafter := Finset.card_le_univ s'.cv.waiting
  cases step_effect hstep with
  | @pushed i v rest wakes cv htodo hnotify =>
    have hsum := sum_update List.length s.todo i rest
    have hlength : (s.todo i).length = rest.length + 1 := by rw [htodo, List.length_cons]
    have hwaiting : s.cv.waiting.card ≤ cv.waiting.card + 1 := by
      rcases Cond.notifyOne_cases hnotify with ⟨-, rfl⟩ | ⟨j, hj, rfl⟩
      · exact Nat.le_succ _
      · exact (Finset.card_erase_add_one hj).ge
    simp only [potential, St.setCv, St.push, Act.extra, List.length_append, List.length_singleton]
    omega
  | @took _ c v rest htests hq =>
    simp only [potential, St.take, Cond.leave, hq, List.length_cons, extra_tests htests]
    omega
  | @slept _ c htests hq =>
    have hcard : (insert c s.cv.waiting).card = s.cv.waiting.card + 1 := Finset.card_insert_of_notMem htests.awake
    simp only [potential, St.setCv, Cond.join, hcard, extra_tests htests] at hafter ⊢
    omega
  | @woke c hc =>
    have hcard : (s.cv.waiting.erase c).card + 1 = s.cv.waiting.card := Finset.card_erase_add_one hc
    simp only [potential, St.setCv, Cond.wake, Act.extra]
    omega

theorem length_le {acts : List (Act ι κ)} (hrun : run todo acts = some s) :
    acts.length ≤ 3 * ∑ i, (todo i).length + Fintype.card κ + (acts.map Act.extra).sum := by
  have hle := Machine.exec_length_le (P := fun _ : St ι κ T => True) (fun _ _ _ hstep _ => ⟨trivial, step_potential hstep⟩)
    hrun trivial
  have hstart : potential (St.init todo : St ι κ T) = 3 * ∑ i, (todo i).length + Fintype.card κ := by
    simp only [potential, St.init, Cond.empty, List.length_nil, Finset.card_empty, add_zero, Nat.sub_zero]
  omega

/-! ## Where runs stop -/

/-- no thread can go on, other than by waking up by itself -/
def Stuck (s : St ι κ T) : Prop := ∀ a, (∀ c, a ≠ .spurious c) → step s a = none

omit [Fintype ι] [Fintype κ] in
theorem Stuck.all_pushed (h : Stuck s) (i : ι) : s.todo i = [] := by
  by_contra hne
  obtain ⟨v, rest, htodo⟩ := List.exists_cons_of_ne_nil hne
  obtain ⟨wakes, cv, hnotify⟩ := Cond.exists_notifyOne s.cv
  have hnone := h (.push i wakes) (by simp)
  simp [step, htodo, hnotify] at hnone

omit [Fintype ι] [Fintype κ] in
theorem Stuck.woken (h : Stuck s) : s.cv.woken = ∅ := by
  refine Finset.eq_empty_of_forall_notMem fun c hc => ?_
  have hnone := h (.resume c) (by simp)
  rw [step, if_pos hc] at hnone
  cases hnone

omit [Fintype ι] [Fintype κ] in
theorem Stuck.waiting (h : Stuck s) (c : κ) : c ∈ s.cv.waiting := by
  by_contra hawake
  have hidle : c ∉ s.cv.busy := by
    rw [Cond.mem_busy, h.woken]
    simpa using hawake
  have hnone := h (.pop c) (by simp)
  rw [step, if_pos hidle] at hnone
  cases hnone

/-- **The consumers wait for ever.** With at least one consumer, whatever the schedule: the values taken so far are the first ones
pushed, in order, and each producer's are pushed in its order; the run has a bounded number of steps, but for spurious wake-ups;
and where no thread can go on, every value of every producer has been pushed and taken, and every consumer sleeps. -/
theorem consumers_wait_forever [Nonempty κ] (todo : ι → List T) (acts : List (Act ι κ)) (s : St ι κ T)
    (hrun : run todo acts = some s) :
    s.taken.map Prod.snd <+: s.pushed.map Prod.snd ∧ (∀ i, pushedBy i s.pushed <+: todo i) ∧
      acts.length ≤ 3 * ∑ i, (todo i).length + Fintype.card κ + (acts.map Act.extra).sum ∧
      (Stuck s → s.taken.map Prod.snd = s.pushed.map Prod.snd ∧ (∀ i, pushedBy i s.pushed = todo i) ∧
        ∀ c, c ∈ s.cv.waiting) := by
  have hs : Inv todo s := run_inv hrun
  refine ⟨hs.queue ▸ List.prefix_append _ _, fun i => hs.todo i ▸ List.prefix_append _ _, length_le hrun, fun hstuck => ?_⟩
  have hempty : s.q = [] := by
    obtain ⟨c⟩ := ‹Nonempty κ›
    have hcovered := hs.covered ⟨c, hstuck.waiting c⟩
    rw [hstuck.woken, Finset.card_empty] at hcovered
    exact List.eq_nil_of_length_eq_zero (Nat.le_zero.1 hcovered)
  have hqueue := hs.queue
  rw [hempty, List.append_nil] at hqueue
  refine ⟨hqueue.symm, fun i => ?_, hstuck.waiting⟩
  have htodo := hs.todo i
  rwa [hstuck.all_pushed i, List.append_nil] at htodo

/-- consumer `true` takes both values, `false` is woken twice for nothing -/
def twoEach : List (Act Bool Bool) :=
  [.pop false, .push false (some false), .pop true, .resume false, .push true (some false), .pop true, .pop true,
    .resume false]

def valueOf (i : Bool) : List ℕ := if i then [8] else [7]

theorem twoEach_waits : (run valueOf twoEach).map (fun s => (s.taken, decide (∀ i, s.todo i = []), s.cv.waiting)) =
    some ([(true, 7), (true, 8)], true, Finset.univ) := by decide +kernel

omit [Fintype ι] [Fintype κ] in
theorem stuck_of_waiting (htodo : ∀ i, s.todo i = []) (hwaiting : ∀ c, c ∈ s.cv.waiting) : Stuck s := by
  intro a ha
  cases a with
  | push i wakes => simp [step, htodo i]
  | pop c => exact if_neg fun hidle => hidle (Cond.mem_busy.2 (Or.inl (hwaiting c)))
  | resume c => exact if_neg (Finset.disjoint_left.1 s.cv.disjoint (hwaiting c))
  | spurious c => exact absurd rfl (ha c)

theorem consumers_wait_forever_twoEach : ∃ s, run valueOf twoEach = some s ∧ s.taken = [(true, 7), (true, 8)] ∧
    (∀ i, pushedBy i s.pushed = valueOf i) ∧ ∀ c, c ∈ s.cv.waiting := by
  obtain ⟨s, hrun, heq⟩ := Option.map_eq_some_iff.1 twoEach_waits
  obtain ⟨htaken, hrest⟩ := Prod.mk.inj heq
  obtain ⟨htodo, hwaiting⟩ := Prod.mk.inj hrest
  have hstuck : Stuck s := stuck_of_waiting (of_decide_eq_true htodo) fun c => hwaiting ▸ Finset.mem_univ c
  obtain ⟨-, hall, hasleep⟩ := (consumers_wait_forever valueOf twoEach s hrun).2.2.2 hstuck
  exact ⟨s, hrun, htaken, hall, hasleep⟩

end Runs

/-! ## Without a condition variable -/

namespace Mutex

structure St (ι κ T : Type) where
  q : List T
  todo : ι → List T
  pushed : List (ι × T)
  taken : List T
  /-- consumers that have returned -/
  returned : Finset κ

inductive Act (ι κ : Type) where
  | push (i : ι)
  | drain (c : κ)
  deriving DecidableEq

namespace St

def init (todo : ι → List T) : St ι κ T := ⟨[], todo, [], [], ∅⟩

def push (s : St ι κ T) (i : ι) (v : T) (rest : List T) : St ι κ T :=
  { s with q := s.q ++ [v], todo := Function.update s.todo i rest, pushed := s.pushed ++ [(i, v)] }

/-- the whole of `consumer` -/
def drain (s : St ι κ T) (c : κ) : St ι κ T :=
  { s with q := [], taken := s.taken ++ s.q, returned := insert c s.returned }

end St

def step (s : St ι κ T) : Act ι κ → Option (St ι κ T)
  | .push i =>
    match s.todo i with
    | [] => none
    | v :: rest => some (s.push i v rest)
  | .drain c => if c ∉ s.returned then some (s.drain c) else none

def run (todo : ι → List T) (acts : List (Act ι κ)) : Option (St ι κ T) := Machine.exec step (.init todo) acts

inductive Effect (s : St ι κ T) : Act ι κ → St ι κ T → Prop
  | pushed {i : ι} {v : T} {rest : List T} (htodo : s.todo i = v :: rest) : Effect s (.push i) (s.push i v rest)
  | drained {c : κ} (hc : c ∉ s.returned) : Effect s (.drain c) (s.drain c)

variable {s s' : St ι κ T} {a : Act ι κ} {todo : ι → List T}

theorem step_effect (h : step s a = some s') : Effect s a s' := by
  cases a with
  | push i =>
    rw [step] at h
    split at h
    · cases h
    · rename_i v rest htodo
      obtain rfl := Option.some.inj h
      exact .pushed htodo
  | drain c =>
    obtain ⟨hc, heq⟩ := Option.ite_none_right_eq_some.1 h
    obtain rfl := Option.some.inj heq
    exact .drained hc

structure Inv (todo : ι → List T) (s : St ι κ T) : Prop where
  queue : s.pushed.map Prod.snd = s.taken ++ s.q
  todo : ∀ i, pushedBy i s.pushed ++ s.todo i = todo i

theorem step_inv (h : Inv todo s) (hstep : step s a = some s') : Inv todo s' := by
  cases step_effect hstep with
  | @pushed i v rest htodo =>
    refine ⟨?_, pushedBy_push h.todo htodo⟩
    change (s.pushed ++ [(i, v)]).map Prod.snd = s.taken ++ (s.q ++ [v])
    rw [List.map_append, h.queue, List.append_assoc]
    rfl
  | drained hc => exact ⟨h.queue.trans (List.append_nil _).symm, h.todo⟩

def Act.isPush : Act ι κ → Bool
  | .push _ => true
  | .drain _ => false

/-- the actions after the last consumer's are pushes, and their values are what is left -/
theorem length_left {acts : List (Act ι κ)} (hrun : run todo acts = some s) :
    s.q.length = (acts.reverse.takeWhile Act.isPush).length := by
  induction acts using List.reverseRecOn generalizing s with
  | nil =>
    obtain rfl := Option.some.inj hrun
    rfl
  | append_singleton acts a ih =>
    rw [run, Machine.exec_append] at hrun
    obtain ⟨t, hbefore, hlast⟩ := Option.bind_eq_some_iff.1 hrun
    obtain ⟨u, hstep, hend⟩ := Machine.exec_cons_eq_some.1 hlast
    obtain rfl : u = s := Option.some.inj hend
    rw [List.reverse_append, List.reverse_singleton, List.singleton_append]
    cases step_effect hstep with
    | @pushed i v rest htodo =>
      rw [List.takeWhile_cons_of_pos rfl, List.length_cons, ← ih hbefore]
      exact List.length_append
    | drained hc =>
      rw [List.takeWhile_cons_of_neg Bool.false_ne_true]
      rfl

section Runs

variable [Fintype ι] [Fintype κ]

def potential (s : St ι κ T) : ℕ := ∑ i, (s.todo i).length + (Fintype.card κ - s.returned.card)

theorem step_potential (hstep : step s a = some s') : potential s' + 1 ≤ potential s + 0 := by
  cases step_effect hstep with
  | @pushed i v rest htodo =>
    have hsum := sum_update List.length s.todo i rest
    have hlength : (s.todo i).length = rest.length + 1 := by rw [htodo, List.length_cons]
    simp only [potential, St.push]
    omega
  | @drained c hc =>
    have hcard : (insert c s.returned).card = s.returned.card + 1 := Finset.card_insert_of_notMem hc
    have hle := Finset.card_le_univ (insert c s.returned)
    simp only [potential, St.drain, hcard] at hle ⊢
    omega

/-- **What is left.** Whatever the schedule: what was pushed is what was taken and then what is left, in order, and what is left
was pushed after the last consumer; a run has no more steps than there are values and consumers, and where it stops, every
producer has pushed all its values and every consumer has returned. -/
theorem values_left (todo : ι → List T) (acts : List (Act ι κ)) (s : St ι κ T) (hrun : run todo acts = some s) :
    s.pushed.map Prod.snd = s.taken ++ s.q ∧ s.q.length = (acts.reverse.takeWhile Act.isPush).length ∧
      acts.length ≤ ∑ i, (todo i).length + Fintype.card κ ∧
      ((∀ a, step s a = none) → (∀ i, pushedBy i s.pushed = todo i) ∧ ∀ c, c ∈ s.returned) := by
  have hs : Inv todo s := Machine.exec_inv (P := Inv todo) (fun _ _ _ hstep h => step_inv h hstep) hrun ⟨rfl, fun _ => rfl⟩
  refine ⟨hs.queue, length_left hrun, ?_, fun hstuck => ⟨fun i => ?_, fun c => ?_⟩⟩
  · have hle := Machine.exec_length_le (P := fun _ : St ι κ T => True) (fun _ _ _ hstep _ => ⟨trivial, step_potential hstep⟩)
      hrun trivial
    have hstart : potential (St.init todo : St ι κ T) = ∑ i, (todo i).length + Fintype.card κ := by
      simp only [potential, St.init, Finset.card_empty, Nat.sub_zero]
    rw [List.map_const', List.sum_replicate, smul_zero] at hle
    omega
  · have hall := hs.todo i
    have hnil : s.todo i = [] := by
      by_contra hne
      obtain ⟨v, rest, htodo⟩ := List.exists_cons_of_ne_nil hne
      have hnone := hstuck (.push i)
      simp [step, htodo] at hnone
    rwa [hnil, List.append_nil] at hall
  · by_contra hc
    have hnone := hstuck (.drain c)
    rw [step, if_pos hc] at hnone
    cases hnone

end Runs

/-- the second consumer comes between the two producers -/
def between : List (Act Bool Bool) := [.drain false, .push false, .drain true, .push true]

theorem values_left_between : ∃ s, run valueOf between = some s ∧ s.q.length = 1 ∧
    s.pushed.map Prod.snd = s.taken ++ s.q := by
  obtain ⟨s, hrun⟩ := Option.isSome_iff_exists.1 (show (run valueOf between).isSome by decide +kernel)
  obtain ⟨hqueue, hlength, -, -⟩ := values_left valueOf between s hrun
  exact ⟨s, hrun, hlength, hqueue⟩

end Mutex

end InterviewPrep.Concurrency.SharedQueue
