/-
The program of pureStorage/rateLimiter.cpp: producers ask the limiter and push the messages they are granted into the blocking
queue, one consumer writes what comes out to the file, main joins the producers, calls `shutdown` and joins the consumer.

The state is the limiter under threads (`RateLimit.Threads`) next to the program around the queue (`BlockingQueue.Program`). A
producer reads the clock and enters the limiter in two steps; with the second, the limiter's answer decides what becomes of the
message. All other steps are those of the program around the queue, where a decision comes from nowhere: every run of the
logger is one of its runs, with these decisions (`run_program`).

- `file_complete`: for every schedule, the file holds messages that were granted, each once, those of one producer in the order
  of its loop; runs are bounded, but for spurious wake-ups; and where no thread can go on, the consumer has left its loop, every
  message has been decided on, and the file holds every message granted.
-/
import InterviewPrep.BlockingQueue.Program
import InterviewPrep.RateLimit.Threads

namespace InterviewPrep.RateLimit.Logger

open BlockingQueue.Program (sentBy)

/-! ## Model -/

structure St (ι Key T : Type) where
  limiter : Threads.St ι Key
  program : BlockingQueue.Program.St ι Unit T

/-- `read` and `enter` are the two steps of `allowRequest` -/
inductive Act (ι : Type) where
  | read (i : ι) (now : ℤ)
  | enter (i : ι)
  | queue (a : BlockingQueue.Program.Act ι Unit)

variable {ι Key T : Type} [DecidableEq ι] [DecidableEq Key]

namespace St

/-- the messages of the producers; main has none -/
def init (maxReq windowMs : ℕ) (clock : ℤ) (messages : ι → List T) : St ι Key T :=
  ⟨.init maxReq windowMs clock, .init [] messages⟩

/-- the answer a producer gets if it enters now -/
def answer (s : St ι Key T) (call : Key × ℤ) : Bool := (RateLimit.step s.limiter.limiter call).2.granted

end St

def step [Fintype ι] (user : ι → Key) (s : St ι Key T) : Act ι → Option (St ι Key T)
  | .read i now =>
    if s.program.todo i ≠ [] ∧ s.program.free i then
      (Threads.step s.limiter (.read i (user i) now)).map fun limiter => { s with limiter := limiter }
    else none
  | .enter i => do
    let call ← s.limiter.stamp i
    let limiter ← Threads.step s.limiter (.enter i)
    let program ← BlockingQueue.Program.step s.program (.decide i (s.answer call))
    some ⟨limiter, program⟩
  | .queue (.decide _ _) => none
  | .queue a => (BlockingQueue.Program.step s.program a).map fun program => { s with program := program }

def run [Fintype ι] (user : ι → Key) (maxReq windowMs : ℕ) (clock : ℤ) (messages : ι → List T) (acts : List (Act ι)) :
    Option (St ι Key T) :=
  Machine.exec (step user) (.init maxReq windowMs clock messages) acts

/-- the lines of the file -/
def file (s : St ι Key T) : List T := s.program.taken.map Prod.snd

/-! ## What a step can do -/

inductive Effect [Fintype ι] (user : ι → Key) (s : St ι Key T) : Act ι → St ι Key T → Prop
  | read {i : ι} {now : ℤ} (htodo : s.program.todo i ≠ []) (hfree : s.program.free i) (hstamp : s.limiter.stamp i = none) :
      Effect user s (.read i now) { s with limiter := s.limiter.read i (user i) now }
  | enter {i : ι} {call : Key × ℤ} {v : T} {rest : List T} (hstamp : s.limiter.stamp i = some call)
      (htodo : s.program.todo i = v :: rest) (hfree : s.program.free i) :
      Effect user s (.enter i) ⟨s.limiter.enter i call, s.program.decide i v rest (s.answer call)⟩
  | queue {a : BlockingQueue.Program.Act ι Unit} {program : BlockingQueue.Program.St ι Unit T}
      (ha : ∀ i grant, a ≠ .decide i grant) (hstep : BlockingQueue.Program.step s.program a = some program) :
      Effect user s (.queue a) { s with program := program }

section Runs

variable [Fintype ι] {user : ι → Key} {s s' : St ι Key T} {a : Act ι}

theorem step_effect (h : step user s a = some s') : Effect user s a s' := by
  cases a with
  | read i now =>
    rw [step] at h
    split_ifs at h with hguard
    obtain ⟨limiter, hlimiter, rfl⟩ := Option.map_eq_some_iff.1 h
    rw [Threads.step] at hlimiter
    split_ifs at hlimiter with hread
    obtain rfl := Option.some.inj hlimiter
    exact .read hguard.1 hguard.2 hread.1
  | enter i =>
    obtain ⟨call, hstamp, h⟩ := Option.bind_eq_some_iff.1 h
    obtain ⟨limiter, hlimiter, h⟩ := Option.bind_eq_some_iff.1 h
    obtain ⟨program, hprogram, h⟩ := Option.bind_eq_some_iff.1 h
    obtain rfl := Option.some.inj h
    rw [Threads.step, hstamp, Option.map_some] at hlimiter
    obtain rfl := Option.some.inj hlimiter
    cases BlockingQueue.Program.step_effects hprogram with
    | decided htodo hfree => exact .enter hstamp htodo hfree
    | popped hcalls | finished hcalls | waits hcalls => simp [BlockingQueue.Program.Calls] at hcalls
  | queue a =>
    have hmap : (∀ i grant, a ≠ .decide i grant) ∧
        (BlockingQueue.Program.step s.program a).map (fun program => { s with program := program }) = some s' := by
      cases a with
      | decide i grant => cases h
      | _ => exact ⟨by simp, h⟩
    obtain ⟨program, hprogram, rfl⟩ := Option.map_eq_some_iff.1 hmap.2
    exact .queue hmap.1 hprogram

omit [DecidableEq Key] in
theorem decide_step {i : ι} {v : T} {rest : List T} (htodo : s.program.todo i = v :: rest) (hfree : s.program.free i)
    (grant : Bool) :
    BlockingQueue.Program.step s.program (.decide i grant) = some (s.program.decide i v rest grant) := by
  rw [BlockingQueue.Program.step, htodo]
  exact if_pos hfree

/-- a reading of the clock is no step of the program around the queue; all others are one -/
theorem step_project (hstep : step user s a = some s') :
    ∃ bs, Machine.exec BlockingQueue.Program.step s.program bs = some s'.program := by
  cases step_effect hstep with
  | read => exact ⟨[], rfl⟩
  | @enter i call v rest hstamp htodo hfree =>
    refine ⟨[.decide i (s.answer call)], ?_⟩
    rw [Machine.exec, decide_step htodo hfree, Option.bind_some, Machine.exec]
  | @queue b program hb hprogram =>
    refine ⟨[b], ?_⟩
    rw [Machine.exec, hprogram, Option.bind_some, Machine.exec]

/-- the logger is the program around the queue, with the limiter's decisions -/
theorem run_program {maxReq windowMs : ℕ} {clock : ℤ} {messages : ι → List T} {acts : List (Act ι)}
    (hrun : run user maxReq windowMs clock messages acts = some s) :
    ∃ bs, BlockingQueue.Program.run [] messages bs = some s.program :=
  Machine.exec_project (f := St.program) (P := fun _ => True) (fun _ _ _ hstep _ => ⟨trivial, step_project hstep⟩) hrun trivial

/-- a step of the queue decides nothing -/
theorem queue_frame {p p' : BlockingQueue.Program.St ι Unit T} {b : BlockingQueue.Program.Act ι Unit}
    (hb : ∀ i grant, b ≠ .decide i grant) (h : BlockingQueue.Program.step p b = some p') :
    p'.todo = p.todo ∧ p'.granted = p.granted := by
  cases BlockingQueue.Program.step_effects h with
  | decided => exact absurd rfl (hb _ _)
  | _ => exact ⟨rfl, rfl⟩

/-! ## The answers -/

/-- a stamp is of its producer's next message; the limiter has granted to a key what it granted to its producers -/
structure Inv (user : ι → Key) (s : St ι Key T) : Prop where
  stamp : ∀ i call, s.limiter.stamp i = some call → call.1 = user i ∧ s.program.todo i ≠ []
  grants : ∀ k, (grants k s.limiter.log).length = ∑ i, if user i = k then (s.program.granted i).length else 0

omit [Fintype ι] in
theorem grants_enter (k : Key) (i : ι) (call : Key × ℤ) :
    (RateLimit.grants k (s.limiter.enter i call).log).length =
      (RateLimit.grants k s.limiter.log).length + if call.1 = k ∧ s.answer call = true then 1 else 0 := by
  unfold RateLimit.grants Threads.St.enter St.answer
  rw [List.filterMap_append, List.length_append, List.filterMap_cons, List.filterMap_nil]
  have hkey : (RateLimit.step s.limiter.limiter call).2.key = call.1 := rfl
  rw [hkey]
  split_ifs <;> rfl

theorem step_inv (h : Inv user s) (hstep : step user s a = some s') : Inv user s' := by
  cases step_effect hstep with
  | @read i now htodo hfree hstamp =>
    refine ⟨fun j call hcall => ?_, h.grants⟩
    change Function.update s.limiter.stamp i (some (user i, now)) j = some call at hcall
    rcases eq_or_ne j i with rfl | hne
    · rw [Function.update_self] at hcall
      obtain rfl := Option.some.inj hcall
      exact ⟨rfl, htodo⟩
    · rw [Function.update_of_ne hne] at hcall
      exact h.stamp j call hcall
  | @enter i call v rest hstamp htodo hfree =>
    obtain ⟨huser, -⟩ := h.stamp i call hstamp
    refine ⟨fun j call' hcall => ?_, fun k => ?_⟩
    · change Function.update s.limiter.stamp i none j = some call' at hcall
      rcases eq_or_ne j i with rfl | hne
      · rw [Function.update_self] at hcall
        cases hcall
      · rw [Function.update_of_ne hne] at hcall
        obtain ⟨hkey, hne'⟩ := h.stamp j call' hcall
        refine ⟨hkey, ?_⟩
        have hsame : (s.program.decide i v rest (s.answer call)).todo j = s.program.todo j := by
          cases s.answer call <;> exact Function.update_of_ne hne ..
        rw [hsame]
        exact hne'
    · rw [grants_enter, h.grants k, huser]
      cases hanswer : s.answer call with
      | false => simp [BlockingQueue.Program.decide_false]
      | true =>
        have hsum : ∀ j, (if user j = k then (Function.update s.program.granted i (s.program.granted i ++ [v]) j).length else 0) =
            (if user j = k then (s.program.granted j).length else 0) + if j = i then (if user i = k then 1 else 0) else 0 := by
          intro j
          rcases eq_or_ne j i with rfl | hne
          · rw [Function.update_self, if_pos rfl]
            split_ifs <;> simp
          · rw [Function.update_of_ne hne, if_neg hne, Nat.add_zero]
        rw [BlockingQueue.Program.decide_true]
        dsimp only
        rw [Finset.sum_congr rfl fun j _ => hsum j, Finset.sum_add_distrib, Finset.sum_ite_eq' Finset.univ i,
          if_pos (Finset.mem_univ i)]
        simp
  | queue hb hprogram =>
    obtain ⟨htodo, hgranted⟩ := queue_frame hb hprogram
    refine ⟨fun j call hcall => ?_, fun k => ?_⟩
    · dsimp only
      rw [htodo]
      exact h.stamp j call hcall
    · dsimp only
      rw [hgranted]
      exact h.grants k

theorem run_inv {maxReq windowMs : ℕ} {clock : ℤ} {messages : ι → List T} {acts : List (Act ι)}
    (hrun : run user maxReq windowMs clock messages acts = some s) : Inv user s := by
  refine Machine.exec_inv (P := Inv user) (fun _ _ _ hstep h => step_inv h hstep) hrun ⟨fun i call hcall => ?_, fun k => ?_⟩
  · cases hcall
  · simp [St.init, Threads.St.init, BlockingQueue.Program.St.init, RateLimit.grants]

/-! ## Where it ends -/

/-- no thread can go on; the consumer may still wake up by itself -/
def Stuck (user : ι → Key) (s : St ι Key T) : Prop := ∀ a, (∀ c, a ≠ .queue (.spurious c)) → step user s a = none

/-- whoever is about to ask can ask: then the program around the queue is stuck, whatever the decisions -/
theorem Stuck.program (h : Stuck user s) : BlockingQueue.Program.Stuck s.program := by
  intro b hb
  by_cases hdecide : ∃ i grant, b = .decide i grant
  · obtain ⟨i, grant, rfl⟩ := hdecide
    rw [BlockingQueue.Program.step]
    split
    · rfl
    · rename_i v rest htodo
      refine if_neg fun hfree => ?_
      cases hstamp : s.limiter.stamp i with
      | none =>
        have hnone := h (.read i s.limiter.clock) (by simp)
        simp [step, Threads.step, htodo, hfree, hstamp] at hnone
      | some call =>
        have hnone := h (.enter i) (by simp)
        simp [step, Threads.step, BlockingQueue.Program.step, htodo, hfree, hstamp] at hnone
  · push Not at hdecide
    have hnone := h (.queue b) fun c heq => hb c (Act.queue.inj heq)
    have hmap : (BlockingQueue.Program.step s.program b).map (fun program => { s with program := program }) = none := by
      cases b with
      | decide i grant => exact absurd rfl (hdecide i grant)
      | _ => exact hnone
    exact Option.map_eq_none_iff.1 hmap

/-! ## How long it takes -/

/-- readings of the clock that a producer has still to make -/
def unread (p : Option (Key × ℤ) × List T) : ℕ :=
  match p.1 with
  | none => p.2.length
  | some _ => p.2.length - 1

def potential (s : St ι Key T) : ℕ :=
  BlockingQueue.Program.potential s.program + ∑ i, unread (s.limiter.stamp i, s.program.todo i)

def Act.extra : Act ι → ℕ
  | .queue a => a.extra
  | _ => 0

omit [DecidableEq Key] in
/-- one producer moves -/
theorem sum_unread (i : ι) (x : Option (Key × ℤ)) (l : List T) :
    ∑ j, unread (Function.update s.limiter.stamp i x j, Function.update s.program.todo i l j) +
        unread (s.limiter.stamp i, s.program.todo i) =
      ∑ j, unread (s.limiter.stamp j, s.program.todo j) + unread (x, l) := by
  have hupdate : (fun j => (Function.update s.limiter.stamp i x j, Function.update s.program.todo i l j)) =
      Function.update (fun j => (s.limiter.stamp j, s.program.todo j)) i (x, l) := by
    funext j
    rcases eq_or_ne j i with rfl | hne
    · rw [Function.update_self, Function.update_self, Function.update_self]
    · rw [Function.update_of_ne hne, Function.update_of_ne hne, Function.update_of_ne hne]
  have hsum := sum_update unread (fun j => (s.limiter.stamp j, s.program.todo j)) i (x, l)
  rw [← hupdate] at hsum
  exact hsum

theorem step_potential {messages : ι → List T} (h : BlockingQueue.Program.Inv [] messages s.program)
    (hstep : step user s a = some s') : potential s' + 1 ≤ potential s + a.extra := by
  cases step_effect hstep with
  | @read i now htodo hfree hstamp =>
    have hsum := sum_unread (s := s) i (some (user i, now)) (s.program.todo i)
    have hpos : 0 < (s.program.todo i).length := List.length_pos_iff.2 htodo
    rw [Function.update_eq_self, hstamp] at hsum
    unfold potential
    dsimp only [unread, Threads.St.read, Act.extra] at hsum ⊢
    omega
  | @enter i call v rest hstamp htodo hfree =>
    have hsum := sum_unread (s := s) i none rest
    have hle := BlockingQueue.Program.step_potential h (decide_step htodo hfree (s.answer call))
    have hnext : (s.program.decide i v rest (s.answer call)).todo = Function.update s.program.todo i rest := by
      cases s.answer call <;> rfl
    rw [hstamp, htodo] at hsum
    unfold potential
    dsimp only [unread, Threads.St.enter, Act.extra, BlockingQueue.Program.Act.extra, List.length_cons] at hsum hle ⊢
    rw [hnext]
    omega
  | queue hb hqueue =>
    have hle := BlockingQueue.Program.step_potential h hqueue
    unfold potential
    dsimp only [Act.extra] at hle ⊢
    rw [(queue_frame hb hqueue).1]
    omega

theorem length_le {maxReq windowMs : ℕ} {clock : ℤ} {messages : ι → List T} {acts : List (Act ι)}
    (hrun : run user maxReq windowMs clock messages acts = some s) :
    acts.length ≤ 6 * ∑ i, (messages i).length + 4 + (acts.map Act.extra).sum := by
  have hpotential : ∀ (s : St ι Key T) (a : Act ι) (t : St ι Key T), step user s a = some t →
      BlockingQueue.Program.Inv [] messages s.program ∧ BlockingQueue.Program.Backed s.program →
      (BlockingQueue.Program.Inv [] messages t.program ∧ BlockingQueue.Program.Backed t.program) ∧
        potential t + 1 ≤ potential s + a.extra := by
    intro s a t hstep h
    obtain ⟨bs, hbs⟩ := step_project hstep
    exact ⟨BlockingQueue.Program.exec_inv hbs h, step_potential h.1 hstep⟩
  have hle := Machine.exec_length_le hpotential hrun ⟨BlockingQueue.Program.init_inv, BlockingQueue.Program.init_backed⟩
  have hstart := BlockingQueue.Program.potential_init (κ := Unit) [] messages
  have hunread : ∑ i, unread ((St.init maxReq windowMs clock messages : St ι Key T).limiter.stamp i,
      (St.init maxReq windowMs clock messages : St ι Key T).program.todo i) = ∑ i, (messages i).length := rfl
  unfold potential at hle
  rw [hunread] at hle
  dsimp only [St.init] at hle
  rw [Fintype.card_unit, List.length_nil] at hstart
  omega

/-- **The file is complete.** For every schedule of the producers, main and the consumer, and every reading of a clock that does
not go backwards: what is in the file has been granted, each message once and those of one producer in the order of its loop; the
limiter has granted to a key as many requests as messages were granted to its producers; the run has a bounded number of steps,
but for spurious wake-ups. Where no thread can go on, the consumer has left its loop, every message has been decided on, and the
file holds all the messages granted. -/
theorem file_complete (user : ι → Key) (maxReq windowMs : ℕ) (clock : ℤ) (messages : ι → List T) (acts : List (Act ι))
    (s : St ι Key T) (hrun : run user maxReq windowMs clock messages acts = some s) :
    (∃ sent, file s <+: sent.map Prod.snd ∧ sentBy none sent = [] ∧
        ∀ i, sentBy (some i) sent <+: s.program.granted i ∧ (s.program.granted i).Sublist (messages i)) ∧
      (∀ k, (grants k s.limiter.log).length = ∑ i, if user i = k then (s.program.granted i).length else 0) ∧
      acts.length ≤ 6 * ∑ i, (messages i).length + 4 + (acts.map Act.extra).sum ∧
      (Stuck user s → () ∈ s.program.exited ∧ ∃ sent, file s = sent.map Prod.snd ∧ sentBy none sent = [] ∧
        ∀ i, s.program.todo i = [] ∧ sentBy (some i) sent = s.program.granted i) := by
  obtain ⟨bs, hprogram⟩ := run_program hrun
  obtain ⟨hinv, hbacked⟩ := BlockingQueue.Program.run_inv hprogram
  refine ⟨⟨s.program.sent, ?_, ?_, fun i => ⟨?_, ?_⟩⟩, (run_inv hrun).grants, length_le hrun, fun hstuck => ?_⟩
  · rw [hbacked.queue]
    exact List.prefix_append _ _
  · exact (List.append_eq_nil_iff.1 hinv.own).1
  · rw [← hinv.granted i]
    exact List.prefix_append _ _
  · obtain ⟨l, hl, hsub⟩ := hinv.decided i
    rw [← hl]
    exact hsub.trans (List.sublist_append_left _ _)
  · obtain ⟨hexited, htaken, hown, hall⟩ := BlockingQueue.Program.stuck_done hprogram hstuck.program
    exact ⟨hexited (), s.program.sent, htaken, hown, hall⟩

theorem stuck_of_final (h : BlockingQueue.Program.Final s.program) : Stuck user s := by
  intro a ha
  have hprogram := BlockingQueue.Program.stuck_of_final h
  cases a with
  | read i now => simp [step, h.todo i]
  | enter i =>
    have hnone : ∀ grant, BlockingQueue.Program.step s.program (.decide i grant) = none := fun grant => hprogram _ (by simp)
    simp [step, hnone]
  | queue b =>
    have hb : BlockingQueue.Program.step s.program b = none := hprogram b fun c heq => ha c (congrArg Act.queue heq)
    cases b <;> simp [step, hb]

end Runs

/-- numerals of `Fin 1` -/
local instance neZeroOne : NeZero 1 := ⟨one_ne_zero⟩

/-- one producer with two messages and one request in two seconds; the consumer sleeps until `shutdown` -/
def oneGrant : List (Act (Fin 1)) :=
  [.read 0 0, .enter 0, .queue (.pop ()), .queue (.push 0), .queue (.notify (.producer 0) (some (.consumer ()))),
    .queue (.resume ()), .read 0 5, .enter 0, .queue (.pop ()), .queue .shutdown, .queue .notifyAll, .queue (.resume ())]

theorem oneGrant_final : (run (fun i : Fin 1 => i) 1 2000 0 (fun _ => [10, 11]) oneGrant).map
    (fun s => (file s, decide (BlockingQueue.Program.Final s.program))) = some ([10], true) := by decide +kernel

theorem file_complete_oneGrant : ∃ s, run (fun i : Fin 1 => i) 1 2000 0 (fun _ => [10, 11]) oneGrant = some s ∧
    file s = [10] ∧ () ∈ s.program.exited ∧ ∃ sent, file s = sent.map Prod.snd ∧ sentBy none sent = [] ∧
      ∀ i, s.program.todo i = [] ∧ sentBy (some i) sent = s.program.granted i := by
  obtain ⟨s, hrun, heq⟩ := Option.map_eq_some_iff.1 oneGrant_final
  obtain ⟨hfile, hfinal⟩ := Prod.mk.inj heq
  have hall := file_complete (fun i : Fin 1 => i) 1 2000 0 (fun _ => [10, 11]) oneGrant s hrun
  exact ⟨s, hrun, hfile, hall.2.2.2 (stuck_of_final (of_decide_eq_true hfinal))⟩

end InterviewPrep.RateLimit.Logger
