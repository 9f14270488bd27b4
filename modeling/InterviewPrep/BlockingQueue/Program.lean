/-
Programs around a `BlockingQueue`: threadPool/blockingQueueThreadPool.cpp, and the part of pureStorage/rateLimiter.cpp behind
the limiter.

Main pushes values of its own, joins the producers, calls `shutdown` and joins the consumers. A producer goes through its
messages and pushes those that it is granted; here a decision is part of the action. A consumer calls `pop` until it returns
false. Either program leaves a part out: the pool has no producers, and the main of the logger has no values of its own.

- `stuck_done`: where no thread can go on, other than by waking up by itself, every consumer has left its loop, and everything
  granted or main's own has been taken, once and in order;
- `length_le`: the steps of a run are bounded, but for two more with each spurious wake-up;
- `pool_drains` says both for the pool: with one consumer or more its main returns, and every item has been processed once.
-/
import InterviewPrep.BlockingQueue
import InterviewPrep.Core.Threads

namespace InterviewPrep.BlockingQueue.Program

/-! ## Model -/

inductive Thread (ι κ : Type) where
  | main
  | producer (i : ι)
  | consumer (c : κ)
  deriving DecidableEq

structure St (ι κ T : Type) where
  bq : BlockingQueue.St (Thread ι κ) T
  /-- what main has still to push -/
  own : List T
  /-- messages that a producer has not decided on yet -/
  todo : ι → List T
  /-- granted, and about to be pushed -/
  holding : ι → Option T
  granted : ι → List T
  /-- main has called `shutdown` -/
  closed : Bool
  /-- consumers that have left their loop -/
  exited : Finset κ
  /-- what the consumers got, in order -/
  taken : List (κ × T)
  /-- what was pushed and by whom, in order; `none` is main -/
  sent : List (Option ι × T)

/-- `wakes` is the thread that `notify_one` picks -/
inductive Act (ι κ : Type) where
  | pushOwn
  | decide (i : ι) (grant : Bool)
  | push (i : ι)
  | notify (t : Thread ι κ) (wakes : Option (Thread ι κ))
  | shutdown
  | notifyAll
  | pop (c : κ)
  | resume (c : κ)
  | spurious (c : κ)
  deriving DecidableEq

variable {ι κ T : Type} [DecidableEq ι] [DecidableEq κ]

namespace St

def init (own : List T) (todo : ι → List T) : St ι κ T :=
  ⟨.init, own, todo, fun _ => none, fun _ => [], false, ∅, [], []⟩

def setBq (s : St ι κ T) (bq : BlockingQueue.St (Thread ι κ) T) : St ι κ T := { s with bq := bq }

def setOwn (s : St ι κ T) (own : List T) : St ι κ T := { s with own := own }

def setHolding (s : St ι κ T) (i : ι) (held : Option T) : St ι κ T :=
  { s with holding := Function.update s.holding i held }

def send (s : St ι κ T) (p : Option ι) (v : T) : St ι κ T := { s with sent := s.sent ++ [(p, v)] }

def close (s : St ι κ T) : St ι κ T := { s with closed := true }

/-- a producer is at the top of its loop -/
def free (s : St ι κ T) (i : ι) : Prop := s.holding i = none ∧ .producer i ∉ s.bq.toOne

/-- the loop goes on with the next message, or first pushes this one -/
def decide (s : St ι κ T) (i : ι) (v : T) (rest : List T) (grant : Bool) : St ι κ T :=
  let s := { s with todo := Function.update s.todo i rest }
  if grant then { s.setHolding i (some v) with granted := Function.update s.granted i (s.granted i ++ [v]) } else s

/-- main has pushed its own values and joined the producers -/
def ready (s : St ι κ T) : Prop := s.own = [] ∧ (∀ i, s.todo i = [] ∧ s.free i) ∧ s.closed = false

/-- the body of a consumer's loop, or its end -/
def collect (s : St ι κ T) (c : κ) : Out T → St ι κ T
  | .popped v => { s with taken := s.taken ++ [(c, v)] }
  | .finished => { s with exited := insert c s.exited }
  | _ => s

def call (s : St ι κ T) (a : BlockingQueue.Act (Thread ι κ) T) : Option (St ι κ T × Out T) :=
  (BlockingQueue.step s.bq a).map fun (bq, out) => (s.setBq bq, out)

instance (s : St ι κ T) (i : ι) : Decidable (s.free i) := inferInstanceAs (Decidable (_ ∧ _))

instance [Fintype ι] (s : St ι κ T) : Decidable s.ready := inferInstanceAs (Decidable (_ ∧ _ ∧ _))

end St

def step [Fintype ι] (s : St ι κ T) : Act ι κ → Option (St ι κ T)
  | .pushOwn =>
    match s.own with
    | [] => none
    | v :: rest => (s.call (.push .main v)).map fun (s, _) => (s.setOwn rest).send none v
  | .decide i grant =>
    match s.todo i with
    | [] => none
    | v :: rest => if s.free i then some (s.decide i v rest grant) else none
  | .push i =>
    match s.holding i with
    | none => none
    | some v => (s.call (.push (.producer i) v)).map fun (s, _) => (s.setHolding i none).send (some i) v
  | .notify t wakes => (s.call (.notifyOne t wakes)).map Prod.fst
  | .shutdown => if s.ready then (s.call (.shutdown .main)).map fun (s, _) => s.close else none
  | .notifyAll => (s.call (.notifyAll .main)).map Prod.fst
  | .pop c => if c ∉ s.exited then (s.call (.pop (.consumer c))).map fun (s, out) => s.collect c out else none
  | .resume c => (s.call (.resume (.consumer c))).map fun (s, out) => s.collect c out
  | .spurious c => (s.call (.spurious (.consumer c))).map Prod.fst

def run [Fintype ι] (own : List T) (todo : ι → List T) (acts : List (Act ι κ)) : Option (St ι κ T) :=
  Machine.exec step (.init own todo) acts

/-- what one thread pushed -/
def sentBy (p : Option ι) (sent : List (Option ι × T)) : List T :=
  sent.filterMap fun (q, v) => if q = p then some v else none

/-! ## What a step can do -/

/-- a consumer calls `pop`, or goes on with it -/
def Calls (s : St ι κ T) (a : Act ι κ) (c : κ) : Prop :=
  a = .pop c ∧ c ∉ s.exited ∧ s.bq.idle (.consumer c) ∨ a = .resume c ∧ .consumer c ∈ s.bq.cv.woken

inductive Effect (s : St ι κ T) : Act ι κ → St ι κ T → Prop
  | pushedOwn {v : T} {rest : List T} (hown : s.own = v :: rest) (hidle : s.bq.idle .main) :
      Effect s .pushOwn (((s.setBq (s.bq.push .main v)).setOwn rest).send none v)
  | decided {i : ι} {v : T} {rest : List T} {grant : Bool} (htodo : s.todo i = v :: rest) (hfree : s.free i) :
      Effect s (.decide i grant) (s.decide i v rest grant)
  | pushed {i : ι} {v : T} (hold : s.holding i = some v) (hidle : s.bq.idle (.producer i)) :
      Effect s (.push i) (((s.setBq (s.bq.push (.producer i) v)).setHolding i none).send (some i) v)
  | notified {t : Thread ι κ} {wakes : Option (Thread ι κ)} {c : Cond (Thread ι κ)} (ht : t ∈ s.bq.toOne)
      (hnotify : s.bq.cv.notifyOne wakes = some c) : Effect s (.notify t wakes) (s.setBq (s.bq.notifyOne t c))
  | shut (hready : s.ready) (hidle : s.bq.idle .main) : Effect s .shutdown (s.setBq (s.bq.shutdown .main)).close
  | notifiedAll (hmain : .main ∈ s.bq.toAll) : Effect s .notifyAll (s.setBq (s.bq.notifyAll .main))
  | popped {a : Act ι κ} {c : κ} {v : T} {rest : List T} (hcalls : Calls s a c) (hqueue : s.bq.queue = v :: rest) :
      Effect s a ((s.setBq { s.bq with queue := rest, cv := s.bq.cv.leave (.consumer c) }).collect c (.popped v))
  | finished {a : Act ι κ} {c : κ} (hcalls : Calls s a c) (hqueue : s.bq.queue = []) (hdone : s.bq.done = true) :
      Effect s a ((s.setBq (s.bq.setCv (s.bq.cv.leave (.consumer c)))).collect c .finished)
  | waits {a : Act ι κ} {c : κ} (hcalls : Calls s a c) (hqueue : s.bq.queue = []) (hdone : s.bq.done = false) :
      Effect s a (s.setBq (s.bq.setCv (s.bq.cv.join (.consumer c))))
  | spurious {c : κ} (hc : .consumer c ∈ s.bq.cv.waiting) :
      Effect s (.spurious c) (s.setBq (s.bq.setCv (s.bq.cv.wake (.consumer c))))

section Effects

variable {s s' : St ι κ T} {a : Act ι κ} {c : κ} {out : Out T}

omit [DecidableEq κ] in
theorem decide_false (i : ι) (v : T) (rest : List T) :
    s.decide i v rest false = { s with todo := Function.update s.todo i rest } := rfl

omit [DecidableEq κ] in
theorem decide_true (i : ι) (v : T) (rest : List T) :
    s.decide i v rest true =
      { s with
        todo := Function.update s.todo i rest
        holding := Function.update s.holding i (some v)
        granted := Function.update s.granted i (s.granted i ++ [v]) } := rfl

theorem call_eq_some {b : BlockingQueue.Act (Thread ι κ) T} (h : s.call b = some (s', out)) :
    ∃ bq, BlockingQueue.step s.bq b = some (bq, out) ∧ s' = s.setBq bq := by
  obtain ⟨⟨bq, out'⟩, hstep, heq⟩ := Option.map_eq_some_iff.1 h
  obtain ⟨rfl, rfl⟩ := Prod.mk.inj heq
  exact ⟨bq, hstep, rfl⟩

theorem collect_effect (hcalls : Calls s a c) {b : BlockingQueue.Act (Thread ι κ) T} {bq : BlockingQueue.St (Thread ι κ) T}
    (hb : b = .pop (.consumer c) ∨ b = .resume (.consumer c)) (h : BlockingQueue.step s.bq b = some (bq, out)) :
    Effect s a ((s.setBq bq).collect c out) := by
  have hsame : ∀ {i : Thread ι κ}, (b = .pop i ∧ s.bq.idle i ∨ b = .resume i ∧ i ∈ s.bq.cv.woken) → i = .consumer c := by
    rintro i (⟨rfl, -⟩ | ⟨rfl, -⟩) <;> simpa using hb
  cases step_effect h with
  | popped ha hqueue =>
    obtain rfl := hsame ha
    exact .popped hcalls hqueue
  | finished ha hqueue hdone =>
    obtain rfl := hsame ha
    exact .finished hcalls hqueue hdone
  | waits ha hqueue hdone =>
    obtain rfl := hsame ha
    exact .waits hcalls hqueue hdone
  | _ => simp at hb

theorem step_effects [Fintype ι] (h : step s a = some s') : Effect s a s' := by
  cases a with
  | pushOwn =>
    rw [step] at h
    split at h
    · cases h
    · rename_i v rest hown
      obtain ⟨⟨t, out⟩, hcall, rfl⟩ := Option.map_eq_some_iff.1 h
      obtain ⟨bq, hstep, rfl⟩ := call_eq_some hcall
      cases step_effect hstep with
      | pushed hidle => exact .pushedOwn hown hidle
      | popped ha | finished ha | waits ha => simp at ha
  | decide i grant =>
    rw [step] at h
    split at h
    · cases h
    · rename_i v rest htodo
      split_ifs at h with hfree
      obtain rfl := Option.some.inj h
      exact .decided htodo hfree
  | push i =>
    rw [step] at h
    split at h
    · cases h
    · rename_i v hold
      obtain ⟨⟨t, out⟩, hcall, rfl⟩ := Option.map_eq_some_iff.1 h
      obtain ⟨bq, hstep, rfl⟩ := call_eq_some hcall
      cases step_effect hstep with
      | pushed hidle => exact .pushed hold hidle
      | popped ha | finished ha | waits ha => simp at ha
  | notify t wakes =>
    obtain ⟨⟨u, out⟩, hcall, rfl⟩ := Option.map_eq_some_iff.1 h
    obtain ⟨bq, hstep, rfl⟩ := call_eq_some hcall
    cases step_effect hstep with
    | notified hi hnotify => exact .notified hi hnotify
    | popped ha | finished ha | waits ha => simp at ha
  | shutdown =>
    rw [step] at h
    split_ifs at h with hready
    obtain ⟨⟨u, out⟩, hcall, rfl⟩ := Option.map_eq_some_iff.1 h
    obtain ⟨bq, hstep, rfl⟩ := call_eq_some hcall
    cases step_effect hstep with
    | shut hidle => exact .shut hready hidle
    | popped ha | finished ha | waits ha => simp at ha
  | notifyAll =>
    obtain ⟨⟨u, out⟩, hcall, rfl⟩ := Option.map_eq_some_iff.1 h
    obtain ⟨bq, hstep, rfl⟩ := call_eq_some hcall
    cases step_effect hstep with
    | notifiedAll hi => exact .notifiedAll hi
    | popped ha | finished ha | waits ha => simp at ha
  | pop c =>
    rw [step] at h
    split_ifs at h with hexited
    obtain ⟨⟨u, out⟩, hcall, rfl⟩ := Option.map_eq_some_iff.1 h
    obtain ⟨bq, hstep, rfl⟩ := call_eq_some hcall
    have hidle : s.bq.idle (.consumer c) := by
      rw [BlockingQueue.step] at hstep
      split_ifs at hstep with hidle
      exact hidle
    exact collect_effect (Or.inl ⟨rfl, hexited, hidle⟩) (Or.inl rfl) hstep
  | resume c =>
    obtain ⟨⟨u, out⟩, hcall, rfl⟩ := Option.map_eq_some_iff.1 h
    obtain ⟨bq, hstep, rfl⟩ := call_eq_some hcall
    have hwoken : .consumer c ∈ s.bq.cv.woken := by
      rw [BlockingQueue.step] at hstep
      split_ifs at hstep with hwoken
      exact hwoken
    exact collect_effect (Or.inr ⟨rfl, hwoken⟩) (Or.inr rfl) hstep
  | spurious c =>
    obtain ⟨⟨u, out⟩, hcall, rfl⟩ := Option.map_eq_some_iff.1 h
    obtain ⟨bq, hstep, rfl⟩ := call_eq_some hcall
    cases step_effect hstep with
    | spurious hi => exact .spurious hi
    | popped ha | finished ha | waits ha => simp at ha

end Effects

/-! ## The queue of the program -/

section Runs

variable {s s' : St ι κ T} {a : Act ι κ} {own : List T} {todo : ι → List T}

/-- the queue has had a run, with these values in and out, and `shutdown` if main called it -/
def Backed (s : St ι κ T) : Prop :=
  ∃ acts log, BlockingQueue.run acts = some (s.bq, log) ∧ accepted log = s.sent.map Prod.snd ∧
    delivered log = s.taken.map Prod.snd ∧ ((∃ t, .shutdown t ∈ acts) ↔ s.closed = true)

theorem Backed.extend (h : Backed s) {b : BlockingQueue.Act (Thread ι κ) T} {out : Out T}
    (hstep : BlockingQueue.step s.bq b = some (s'.bq, out))
    (hsent : s'.sent.map Prod.snd = s.sent.map Prod.snd ++ accepted [out])
    (htaken : s'.taken.map Prod.snd = s.taken.map Prod.snd ++ delivered [out])
    (hclosed : s'.closed = true ↔ s.closed = true ∨ ∃ t, b = .shutdown t) : Backed s' := by
  obtain ⟨acts, log, hrun, haccepted, hdelivered, hshut⟩ := h
  refine ⟨acts ++ [b], log ++ [out], Machine.run_concat hrun hstep, ?_, ?_, ?_⟩
  · rw [accepted_concat, haccepted, hsent]
  · rw [delivered_concat, hdelivered, htaken]
  · rw [hclosed, ← hshut]
    simp only [List.mem_append, List.mem_singleton, exists_or, eq_comm]

theorem Backed.collect (h : Backed s) {b : BlockingQueue.Act (Thread ι κ) T} {bq : BlockingQueue.St (Thread ι κ) T}
    {out : Out T} {c : κ} (hb : b = .pop (.consumer c) ∨ b = .resume (.consumer c))
    (hstep : BlockingQueue.step s.bq b = some (bq, out)) : Backed ((s.setBq bq).collect c out) := by
  have hkeep : ¬∃ t, b = .shutdown t := by
    rintro ⟨t, rfl⟩
    simp at hb
  have hnotPushed : ∀ v, out ≠ .pushed v := by
    rintro v rfl
    cases step_effect hstep with
    | pushed => simp at hb
  have hcall : BlockingQueue.step s.bq b = some (((s.setBq bq).collect c out).bq, out) := by cases out <;> exact hstep
  refine h.extend hcall ?_ ?_ ?_
  · cases out with
    | pushed v => exact absurd rfl (hnotPushed v)
    | _ => simp [St.collect, St.setBq, accepted]
  · cases out <;> simp [St.collect, St.setBq, delivered]
  · cases out <;> simp [St.collect, St.setBq, hkeep]

variable [Fintype ι]

theorem step_backed (h : Backed s) (hstep : step s a = some s') : Backed s' := by
  cases a with
  | pushOwn =>
    rw [step] at hstep
    split at hstep
    · cases hstep
    · obtain ⟨⟨t, out⟩, hcall, rfl⟩ := Option.map_eq_some_iff.1 hstep
      obtain ⟨bq, hbq, rfl⟩ := call_eq_some hcall
      have hout := hbq
      rw [BlockingQueue.step] at hout
      split_ifs at hout
      obtain ⟨-, rfl⟩ := Prod.mk.inj (Option.some.inj hout)
      refine h.extend hbq ?_ ?_ ?_ <;> simp [St.send, St.setOwn, St.setBq, accepted, delivered]
  | decide i grant =>
    rw [step] at hstep
    split at hstep
    · cases hstep
    · split_ifs at hstep
      obtain rfl := Option.some.inj hstep
      cases grant <;> exact h
  | push i =>
    rw [step] at hstep
    split at hstep
    · cases hstep
    · obtain ⟨⟨t, out⟩, hcall, rfl⟩ := Option.map_eq_some_iff.1 hstep
      obtain ⟨bq, hbq, rfl⟩ := call_eq_some hcall
      have hout := hbq
      rw [BlockingQueue.step] at hout
      split_ifs at hout
      obtain ⟨-, rfl⟩ := Prod.mk.inj (Option.some.inj hout)
      refine h.extend hbq ?_ ?_ ?_ <;> simp [St.send, St.setHolding, St.setBq, accepted, delivered]
  | notify t wakes =>
    obtain ⟨⟨u, out⟩, hcall, rfl⟩ := Option.map_eq_some_iff.1 hstep
    obtain ⟨bq, hbq, rfl⟩ := call_eq_some hcall
    cases step_effect hbq with
    | notified => refine h.extend hbq ?_ ?_ ?_ <;> simp [St.setBq, accepted, delivered]
    | popped ha | finished ha | waits ha => simp at ha
  | shutdown =>
    rw [step] at hstep
    split_ifs at hstep
    obtain ⟨⟨u, out⟩, hcall, rfl⟩ := Option.map_eq_some_iff.1 hstep
    obtain ⟨bq, hbq, rfl⟩ := call_eq_some hcall
    cases step_effect hbq with
    | shut => refine h.extend hbq ?_ ?_ ?_ <;> simp [St.close, St.setBq, accepted, delivered]
    | popped ha | finished ha | waits ha => simp at ha
  | notifyAll =>
    obtain ⟨⟨u, out⟩, hcall, rfl⟩ := Option.map_eq_some_iff.1 hstep
    obtain ⟨bq, hbq, rfl⟩ := call_eq_some hcall
    cases step_effect hbq with
    | notifiedAll => refine h.extend hbq ?_ ?_ ?_ <;> simp [St.setBq, accepted, delivered]
    | popped ha | finished ha | waits ha => simp at ha
  | pop c =>
    rw [step] at hstep
    split_ifs at hstep
    obtain ⟨⟨u, out⟩, hcall, rfl⟩ := Option.map_eq_some_iff.1 hstep
    obtain ⟨bq, hbq, rfl⟩ := call_eq_some hcall
    exact h.collect (Or.inl rfl) hbq
  | resume c =>
    obtain ⟨⟨u, out⟩, hcall, rfl⟩ := Option.map_eq_some_iff.1 hstep
    obtain ⟨bq, hbq, rfl⟩ := call_eq_some hcall
    exact h.collect (Or.inr rfl) hbq
  | spurious c =>
    obtain ⟨⟨u, out⟩, hcall, rfl⟩ := Option.map_eq_some_iff.1 hstep
    obtain ⟨bq, hbq, rfl⟩ := call_eq_some hcall
    cases step_effect hbq with
    | spurious => refine h.extend hbq ?_ ?_ ?_ <;> simp [St.setBq, accepted, delivered]
    | popped ha | finished ha | waits ha => simp at ha

omit [Fintype ι] in
theorem Backed.queue (h : Backed s) : s.sent.map Prod.snd = s.taken.map Prod.snd ++ s.bq.queue := by
  obtain ⟨acts, log, hrun, haccepted, hdelivered, -⟩ := h
  rw [← haccepted, ← hdelivered, (BlockingQueue.run_inv hrun).queue]

omit [Fintype ι] in
theorem Backed.done (h : Backed s) : s.bq.done = s.closed := by
  obtain ⟨acts, log, hrun, -, -, hshut⟩ := h
  rw [Bool.eq_iff_iff, (BlockingQueue.run_inv hrun).done, hshut]

omit [Fintype ι] in
theorem Backed.attended (h : Backed s) : Attended s.bq := by
  obtain ⟨acts, log, hrun, -, -, -⟩ := h
  exact run_attended hrun

/-! ## The threads of the program -/

/-- the parts of the program that the queue does not see -/
structure Inv (own : List T) (todo : ι → List T) (s : St ι κ T) : Prop where
  own : sentBy none s.sent ++ s.own = own
  granted : ∀ i, sentBy (some i) s.sent ++ (s.holding i).toList = s.granted i
  decided : ∀ i, ∃ l, l ++ s.todo i = todo i ∧ (s.granted i).Sublist l
  /-- only consumers that are still in their loop sleep -/
  busy : ∀ t ∈ s.bq.cv.busy, ∃ c, t = .consumer c ∧ c ∉ s.exited
  /-- only main and the producers notify, and only main notifies all -/
  toOne : ∀ c, .consumer c ∉ s.bq.toOne
  toAll : ∀ t ∈ s.bq.toAll, t = .main
  closed : s.closed = true → s.own = [] ∧ ∀ i, s.todo i = [] ∧ s.holding i = none
  exited : s.exited.Nonempty → s.bq.queue = [] ∧ s.closed = true

omit [DecidableEq κ] [Fintype ι] in
theorem sentBy_concat (p q : Option ι) (v : T) (sent : List (Option ι × T)) :
    sentBy p (sent ++ [(q, v)]) = sentBy p sent ++ if q = p then [v] else [] := by
  unfold sentBy
  rw [List.filterMap_append]
  split_ifs with h <;> simp [h]

omit [Fintype ι] in
/-- main and the producers are never inside `pop` -/
theorem Inv.not_busy (h : Inv own todo s) {t : Thread ι κ} (ht : ∀ c, t ≠ .consumer c) : t ∉ s.bq.cv.busy := by
  intro hmem
  obtain ⟨c, rfl, -⟩ := h.busy t hmem
  exact ht c rfl

omit [Fintype ι] in
/-- a consumer that calls `pop`, or goes on with it, has not left its loop and does not sleep -/
theorem Inv.calls (h : Inv own todo s) {c : κ} (hcalls : Calls s a c) :
    c ∉ s.exited ∧ .consumer c ∉ s.bq.cv.waiting := by
  rcases hcalls with ⟨-, hexited, hidle⟩ | ⟨-, hwoken⟩
  · exact ⟨hexited, fun hwaiting => hidle.1 (Cond.mem_busy.2 (Or.inl hwaiting))⟩
  · obtain ⟨c', heq, hexited⟩ := h.busy _ (Cond.mem_busy.2 (Or.inr hwoken))
    obtain rfl := Thread.consumer.inj heq
    exact ⟨hexited, Finset.disjoint_right.1 s.bq.cv.disjoint hwoken⟩

omit [Fintype ι] in
/-- before `shutdown` no consumer has left its loop -/
theorem Inv.exited_empty (h : Inv own todo s) (hopen : ¬s.closed = true) : ¬s.exited.Nonempty :=
  fun hne => hopen (h.exited hne).2

omit [Fintype ι] in
theorem Inv.pushOwn (h : Inv own todo s) {v : T} {rest : List T} (hown : s.own = v :: rest) :
    Inv own todo (((s.setBq (s.bq.push .main v)).setOwn rest).send none v) := by
  have hopen : ¬s.closed = true := fun hclosed => by
    rw [(h.closed hclosed).1] at hown
    cases hown
  refine ⟨?_, fun i => ?_, h.decided, h.busy, fun c => ?_, h.toAll, fun hclosed => absurd hclosed hopen,
    fun hne => absurd hne (h.exited_empty hopen)⟩
  · have hsplit := h.own
    rw [hown] at hsplit
    change sentBy none (s.sent ++ [(none, v)]) ++ rest = own
    rw [sentBy_concat, if_pos rfl, List.append_assoc]
    exact hsplit
  · change sentBy (some i) (s.sent ++ [(none, v)]) ++ (s.holding i).toList = s.granted i
    rw [sentBy_concat, if_neg (by simp), List.append_nil]
    exact h.granted i
  · change .consumer c ∉ insert .main s.bq.toOne
    rw [Finset.mem_insert]
    exact not_or.2 ⟨by simp, h.toOne c⟩

omit [Fintype ι] in
theorem Inv.decide (h : Inv own todo s) {i : ι} {v : T} {rest : List T} (grant : Bool) (htodo : s.todo i = v :: rest)
    (hfree : s.free i) : Inv own todo (s.decide i v rest grant) := by
  have hopen : ¬s.closed = true := fun hclosed => by
    rw [((h.closed hclosed).2 i).1] at htodo
    cases htodo
  have hdecided : ∀ (g : ι → List T), (∀ j, j ≠ i → g j = s.granted j) → (g i).Sublist (s.granted i ++ [v]) → ∀ j,
      ∃ l, l ++ Function.update s.todo i rest j = todo j ∧ (g j).Sublist l := by
    intro g hother hself j
    obtain ⟨l, hl, hsub⟩ := h.decided j
    rcases eq_or_ne j i with rfl | hne
    · refine ⟨l ++ [v], ?_, hself.trans (hsub.append (List.Sublist.refl [v]))⟩
      rw [Function.update_self, List.append_assoc, ← hl, htodo]
      rfl
    · refine ⟨l, ?_, hother j hne ▸ hsub⟩
      rw [Function.update_of_ne hne, hl]
  cases grant with
  | false =>
    exact ⟨h.own, h.granted, hdecided s.granted (fun _ _ => rfl) (List.sublist_append_left _ _), h.busy, h.toOne, h.toAll,
      fun hclosed => absurd hclosed hopen, fun hne => absurd hne (h.exited_empty hopen)⟩
  | true =>
    refine ⟨h.own, fun j => ?_, hdecided _ (fun j hne => Function.update_of_ne hne _ _) ?_, h.busy, h.toOne, h.toAll,
      fun hclosed => absurd hclosed hopen, fun hne => absurd hne (h.exited_empty hopen)⟩
    · change sentBy (some j) s.sent ++ (Function.update s.holding i (some v) j).toList =
        Function.update s.granted i (s.granted i ++ [v]) j
      have hgranted := h.granted j
      rcases eq_or_ne j i with rfl | hne
      · rw [hfree.1, Option.toList_none, List.append_nil] at hgranted
        rw [Function.update_self, Function.update_self, hgranted]
        rfl
      · rw [Function.update_of_ne hne, Function.update_of_ne hne, hgranted]
    · have hnew : (s.decide i v rest true).granted i = s.granted i ++ [v] := Function.update_self ..
      rw [hnew]

omit [Fintype ι] in
theorem Inv.push (h : Inv own todo s) {i : ι} {v : T} (hold : s.holding i = some v) :
    Inv own todo (((s.setBq (s.bq.push (.producer i) v)).setHolding i none).send (some i) v) := by
  have hopen : ¬s.closed = true := fun hclosed => by
    rw [((h.closed hclosed).2 i).2] at hold
    cases hold
  refine ⟨?_, fun j => ?_, h.decided, h.busy, fun c => ?_, h.toAll, fun hclosed => absurd hclosed hopen,
    fun hne => absurd hne (h.exited_empty hopen)⟩
  · change sentBy none (s.sent ++ [(some i, v)]) ++ s.own = own
    rw [sentBy_concat, if_neg (by simp), List.append_nil]
    exact h.own
  · change sentBy (some j) (s.sent ++ [(some i, v)]) ++ (Function.update s.holding i none j).toList = s.granted j
    have hgranted := h.granted j
    rw [sentBy_concat]
    rcases eq_or_ne j i with rfl | hne
    · rw [hold] at hgranted
      rw [if_pos rfl, Function.update_self, ← hgranted, Option.toList_none, List.append_nil]
      rfl
    · rw [if_neg fun heq => hne (Option.some.inj heq).symm, List.append_nil, Function.update_of_ne hne, hgranted]
  · change .consumer c ∉ insert (.producer i) s.bq.toOne
    rw [Finset.mem_insert]
    exact not_or.2 ⟨by simp, h.toOne c⟩

theorem step_inv (h : Inv own todo s) (hbacked : Backed s) (hstep : step s a = some s') : Inv own todo s' := by
  cases step_effects hstep with
  | pushedOwn hown hidle => exact h.pushOwn hown
  | decided htodo hfree => exact h.decide _ htodo hfree
  | pushed hold hidle => exact h.push hold
  | notified ht hnotify =>
    refine ⟨h.own, h.granted, h.decided, ?_, fun c hc => h.toOne c (Finset.mem_of_mem_erase hc), h.toAll, h.closed, h.exited⟩
    intro t hmem
    exact h.busy t (Cond.busy_notifyOne hnotify ▸ hmem)
  | shut hready hidle =>
    refine ⟨h.own, h.granted, h.decided, h.busy, h.toOne, ?_, fun _ => ⟨hready.1, fun i => ⟨(hready.2.1 i).1, (hready.2.1 i).2.1⟩⟩,
      fun hne => ⟨(h.exited hne).1, rfl⟩⟩
    intro t hmem
    rcases Finset.mem_insert.1 hmem with rfl | hold
    · rfl
    · exact h.toAll t hold
  | notifiedAll hmain =>
    refine ⟨h.own, h.granted, h.decided, ?_, h.toOne, fun t ht => h.toAll t (Finset.mem_of_mem_erase ht), h.closed, h.exited⟩
    intro t hmem
    have hbefore : t ∈ s.bq.cv.notifyAll.busy := hmem
    rw [Cond.busy_notifyAll] at hbefore
    exact h.busy t hbefore
  | @popped _ c v rest hcalls hqueue =>
    refine ⟨h.own, h.granted, h.decided, ?_, h.toOne, h.toAll, h.closed, ?_⟩
    · intro t hmem
      exact h.busy t (Cond.mem_busy.2 ((Cond.mem_busy_leave.1 hmem).imp id And.right))
    · intro hne
      rw [(h.exited hne).1] at hqueue
      cases hqueue
  | @finished _ c hcalls hqueue hdone =>
    refine ⟨h.own, h.granted, h.decided, ?_, h.toOne, h.toAll, h.closed, fun _ => ⟨hqueue, hbacked.done ▸ hdone⟩⟩
    intro t hmem
    have hleft := Cond.mem_busy_leave.1 hmem
    obtain ⟨c', rfl, hexited⟩ := h.busy t (Cond.mem_busy.2 (hleft.imp id And.right))
    refine ⟨c', rfl, ?_⟩
    change c' ∉ insert c s.exited
    rw [Finset.mem_insert]
    refine not_or.2 ⟨?_, hexited⟩
    rintro rfl
    rcases hleft with hwaiting | ⟨hne, -⟩
    · exact (h.calls hcalls).2 hwaiting
    · exact hne rfl
  | @waits _ c hcalls hqueue hdone =>
    refine ⟨h.own, h.granted, h.decided, ?_, h.toOne, h.toAll, h.closed, h.exited⟩
    intro t hmem
    have hbefore : t ∈ (s.bq.cv.join (.consumer c)).busy := hmem
    rw [Cond.busy_join, Finset.mem_insert] at hbefore
    rcases hbefore with rfl | hold
    · exact ⟨c, rfl, (h.calls hcalls).1⟩
    · exact h.busy t hold
  | spurious hc =>
    refine ⟨h.own, h.granted, h.decided, ?_, h.toOne, h.toAll, h.closed, h.exited⟩
    intro t hmem
    exact h.busy t (Cond.busy_wake hc ▸ hmem)

omit [Fintype ι] in
theorem init_backed : Backed (St.init own todo : St ι κ T) := ⟨[], [], rfl, rfl, rfl, by simp [St.init]⟩

omit [Fintype ι] in
theorem init_inv : Inv own todo (St.init own todo : St ι κ T) where
  own := rfl
  granted _ := rfl
  decided _ := ⟨[], rfl, List.Sublist.refl _⟩
  busy t ht := absurd ht (by simp [St.init, BlockingQueue.St.init, Cond.busy, Cond.empty])
  toOne _ := Finset.notMem_empty _
  toAll t ht := absurd ht (Finset.notMem_empty t)
  closed hclosed := by cases hclosed
  exited hne := absurd hne Finset.not_nonempty_empty

theorem exec_inv {acts : List (Act ι κ)} (hexec : Machine.exec step s acts = some s') (h : Inv own todo s ∧ Backed s) :
    Inv own todo s' ∧ Backed s' :=
  Machine.exec_inv (P := fun s => Inv own todo s ∧ Backed s)
    (fun _ _ _ hstep h => ⟨step_inv h.1 h.2 hstep, step_backed h.2 hstep⟩) hexec h

theorem run_inv {acts : List (Act ι κ)} (hrun : run own todo acts = some s) : Inv own todo s ∧ Backed s :=
  exec_inv hrun ⟨init_inv, init_backed⟩

/-! ## Where it ends -/

/-- no thread can go on; one that sleeps may still wake up by itself -/
def Stuck (s : St ι κ T) : Prop := ∀ a, (∀ c, a ≠ .spurious c) → step s a = none

theorem Stuck.toOne (h : Stuck s) : s.bq.toOne = ∅ := by
  rw [Finset.eq_empty_iff_forall_notMem]
  intro t ht
  obtain ⟨w, c, hnotify⟩ := s.bq.cv.exists_notifyOne
  have hnone := h (.notify t w) (by simp)
  simp [step, St.call, BlockingQueue.step, ht, hnotify] at hnone

theorem Stuck.toAll (h : Stuck s) (hinv : Inv own todo s) : s.bq.toAll = ∅ := by
  rw [Finset.eq_empty_iff_forall_notMem]
  intro t ht
  obtain rfl := hinv.toAll t ht
  have hnone := h .notifyAll (by simp)
  simp [step, St.call, BlockingQueue.step, ht] at hnone

theorem Stuck.woken (h : Stuck s) (hinv : Inv own todo s) : s.bq.cv.woken = ∅ := by
  rw [Finset.eq_empty_iff_forall_notMem]
  intro t ht
  obtain ⟨c, rfl, -⟩ := hinv.busy t (Cond.mem_busy.2 (Or.inr ht))
  have hnone := h (.resume c) (by simp)
  simp [step, St.call, BlockingQueue.step, ht] at hnone

theorem Stuck.idle (h : Stuck s) (hinv : Inv own todo s) {t : Thread ι κ} (ht : ∀ c, t ≠ .consumer c) : s.bq.idle t := by
  refine ⟨hinv.not_busy ht, ?_, ?_⟩
  · rw [h.toOne]
    exact Finset.notMem_empty t
  · rw [h.toAll hinv]
    exact Finset.notMem_empty t

theorem Stuck.own_empty (h : Stuck s) (hinv : Inv own todo s) : s.own = [] := by
  cases hown : s.own with
  | nil => rfl
  | cons v rest =>
    have hnone := h .pushOwn (by simp)
    have hidle : s.bq.idle .main := h.idle hinv (by simp)
    simp [step, hown, St.call, BlockingQueue.step, hidle] at hnone

theorem Stuck.producer (h : Stuck s) (hinv : Inv own todo s) (i : ι) : s.todo i = [] ∧ s.free i := by
  have hidle : s.bq.idle (.producer i) := h.idle hinv (by simp)
  have hfree : s.free i := by
    refine ⟨?_, hidle.2.1⟩
    cases hold : s.holding i with
    | none => rfl
    | some v =>
      have hnone := h (.push i) (by simp)
      simp [step, hold, St.call, BlockingQueue.step, hidle] at hnone
  refine ⟨?_, hfree⟩
  cases htodo : s.todo i with
  | nil => rfl
  | cons v rest =>
    have hnone := h (.decide i true) (by simp)
    simp [step, htodo, hfree] at hnone

theorem Stuck.closed (h : Stuck s) (hinv : Inv own todo s) : s.closed = true := by
  by_contra hopen
  have hready : s.ready := ⟨h.own_empty hinv, h.producer hinv, Bool.eq_false_of_not_eq_true hopen⟩
  have hidle : s.bq.idle .main := h.idle hinv (by simp)
  have hnone := h .shutdown (by simp)
  simp [step, hready, St.call, BlockingQueue.step, hidle] at hnone

/-- nobody sleeps, so a consumer that is not in a call may call `pop` -/
theorem Stuck.exited (h : Stuck s) (hinv : Inv own todo s) (hbacked : Backed s) (c : κ) : c ∈ s.exited := by
  by_contra hexited
  have hasleep : s.bq.cv.waiting = ∅ := by
    rcases hbacked.attended.shutdown (hbacked.done.trans (h.closed hinv)) with hempty | hne
    · exact hempty
    · rw [h.toAll hinv] at hne
      exact absurd hne Finset.not_nonempty_empty
  have hidle : s.bq.idle (.consumer c) := by
    refine ⟨?_, hinv.toOne c, ?_⟩
    · rw [Cond.mem_busy, hasleep, h.woken hinv]
      simp
    · rw [h.toAll hinv]
      exact Finset.notMem_empty _
  have hnone := h (.pop c) (by simp)
  simp [step, hexited, St.call, BlockingQueue.step, hidle] at hnone

/-- every thread has come to its end -/
structure Final (s : St ι κ T) : Prop where
  own : s.own = []
  todo : ∀ i, s.todo i = []
  holding : ∀ i, s.holding i = none
  closed : s.closed = true
  exited : ∀ c, c ∈ s.exited
  woken : s.bq.cv.woken = ∅
  toOne : s.bq.toOne = ∅
  toAll : s.bq.toAll = ∅

instance [Fintype κ] (s : St ι κ T) : Decidable (Final s) :=
  decidable_of_iff
    (s.own = [] ∧ (∀ i, s.todo i = []) ∧ (∀ i, s.holding i = none) ∧ s.closed = true ∧ (∀ c, c ∈ s.exited) ∧
      s.bq.cv.woken = ∅ ∧ s.bq.toOne = ∅ ∧ s.bq.toAll = ∅)
    ⟨fun h => ⟨h.1, h.2.1, h.2.2.1, h.2.2.2.1, h.2.2.2.2.1, h.2.2.2.2.2.1, h.2.2.2.2.2.2.1, h.2.2.2.2.2.2.2⟩,
    fun h => ⟨h.own, h.todo, h.holding, h.closed, h.exited, h.woken, h.toOne, h.toAll⟩⟩

theorem stuck_of_final (h : Final s) : Stuck s := by
  intro a ha
  cases a with
  | pushOwn => simp [step, h.own]
  | decide i grant => simp [step, h.todo i]
  | push i => simp [step, h.holding i]
  | notify t wakes => simp [step, St.call, BlockingQueue.step, h.toOne]
  | shutdown => simp [step, St.ready, h.closed]
  | notifyAll => simp [step, St.call, BlockingQueue.step, h.toAll]
  | pop c => simp [step, h.exited c]
  | resume c => simp [step, St.call, BlockingQueue.step, h.woken]
  | spurious c => exact absurd rfl (ha c)

/-- **Nobody waits in vain.** Where no thread can go on, every consumer has left its loop, and everything main had to push and
everything granted has been taken, in the order it was pushed. -/
theorem stuck_done [Nonempty κ] {acts : List (Act ι κ)} (hrun : run own todo acts = some s) (hstuck : Stuck s) :
    (∀ c, c ∈ s.exited) ∧ s.taken.map Prod.snd = s.sent.map Prod.snd ∧ sentBy none s.sent = own ∧
      ∀ i, s.todo i = [] ∧ sentBy (some i) s.sent = s.granted i := by
  obtain ⟨hinv, hbacked⟩ := run_inv hrun
  have hexited := hstuck.exited hinv hbacked
  obtain ⟨c⟩ := ‹Nonempty κ›
  have hqueue := hbacked.queue
  rw [(hinv.exited ⟨c, hexited c⟩).1, List.append_nil] at hqueue
  have hown := hinv.own
  rw [hstuck.own_empty hinv, List.append_nil] at hown
  refine ⟨hexited, hqueue.symm, hown, fun i => ?_⟩
  obtain ⟨htodo, hfree⟩ := hstuck.producer hinv i
  have hgranted := hinv.granted i
  rw [hfree.1, Option.toList_none, List.append_nil] at hgranted
  exact ⟨htodo, hgranted⟩

/-! ## How long it takes -/

/-- consumers that have not left their loop and do not sleep -/
def active [Fintype κ] (s : St ι κ T) : Finset κ := {c | c ∉ s.exited ∧ .consumer c ∉ s.bq.cv.waiting}

/-- what is left to be done: a value is decided on, pushed, notified, and taken, each consumer looks once more for every
notification, and leaves -/
def potential [Fintype κ] (s : St ι κ T) : ℕ :=
  5 * ∑ i, (s.todo i).length + 4 * ∑ i, (s.holding i).toList.length + 4 * s.own.length + 2 * s.bq.toOne.card +
    (bif s.closed then 0 else Fintype.card κ + 2) + (Fintype.card κ + 1) * s.bq.toAll.card + s.bq.queue.length +
    (active s).card

/-- a thread that wakes up by itself may have to look in vain -/
def Act.extra : Act ι κ → ℕ
  | .spurious _ => 2
  | _ => 0

section Length

variable [Fintype κ]

omit [Fintype ι] in
theorem active_le (s : St ι κ T) : (active s).card ≤ Fintype.card κ := Finset.card_le_univ _

omit [Fintype ι] in
theorem active_congr (hexited : s'.exited = s.exited) (hwaiting : s'.bq.cv.waiting = s.bq.cv.waiting) :
    active s' = active s := by
  unfold active
  rw [hexited, hwaiting]

omit [Fintype ι] in
/-- waking one thread makes at most one consumer active -/
theorem active_wake {t : Thread ι κ} (hexited : s'.exited = s.exited)
    (hwaiting : s'.bq.cv.waiting = s.bq.cv.waiting.erase t) : (active s').card ≤ (active s).card + 1 := by
  cases t with
  | consumer c =>
    have hsub : active s' ⊆ insert c (active s) := by
      intro d hd
      simp only [active, Finset.mem_filter, Finset.mem_univ, true_and, Finset.mem_insert, hexited, hwaiting,
        Finset.mem_erase, not_and] at hd ⊢
      rcases eq_or_ne d c with rfl | hne
      · exact Or.inl rfl
      · exact Or.inr ⟨hd.1, hd.2 fun heq => hne (Thread.consumer.inj heq)⟩
    exact (Finset.card_le_card hsub).trans (Finset.card_insert_le _ _)
  | _ =>
    have hsub : active s' ⊆ active s := by
      intro d hd
      simp only [active, Finset.mem_filter, Finset.mem_univ, true_and, hexited, hwaiting, Finset.mem_erase, not_and] at hd ⊢
      exact ⟨hd.1, hd.2 (by simp)⟩
    exact (Finset.card_le_card hsub).trans (Nat.le_succ _)

omit [Fintype ι] in
theorem active_notifyOne {c : Cond (Thread ι κ)} {w : Option (Thread ι κ)} (hexited : s'.exited = s.exited)
    (hcv : s'.bq.cv = c) (hnotify : s.bq.cv.notifyOne w = some c) : (active s').card ≤ (active s).card + 1 := by
  rcases Cond.notifyOne_cases hnotify with ⟨-, hsame⟩ | ⟨t, -, hwake⟩
  · rw [active_congr hexited (congrArg Cond.waiting (hcv.trans hsame))]
    exact Nat.le_succ _
  · exact active_wake hexited (congrArg Cond.waiting (hcv.trans hwake))

omit [Fintype ι] in
/-- a consumer that leaves, or falls asleep, was active -/
theorem active_lt {c : κ} (hsub : active s' ⊆ active s) (hbefore : c ∉ s.exited ∧ .consumer c ∉ s.bq.cv.waiting)
    (hafter : c ∈ s'.exited ∨ .consumer c ∈ s'.bq.cv.waiting) : (active s').card < (active s).card := by
  refine Finset.card_lt_card (Finset.ssubset_iff_of_subset hsub |>.2 ⟨c, ?_, ?_⟩)
  · simpa [active] using hbefore
  · simp only [active, Finset.mem_filter, Finset.mem_univ, true_and, not_and_or, not_not]
    exact hafter

theorem step_potential (h : Inv own todo s) (hstep : step s a = some s') : potential s' + 1 ≤ potential s + a.extra := by
  cases step_effects hstep with
  | @pushedOwn v rest hown hidle =>
    have hcard : (insert .main s.bq.toOne).card = s.bq.toOne.card + 1 := Finset.card_insert_of_notMem hidle.2.1
    have hlength : s.own.length = rest.length + 1 := by rw [hown, List.length_cons]
    have hqueue : (s.bq.queue ++ [v]).length = s.bq.queue.length + 1 := by simp
    unfold potential
    dsimp only [St.setBq, St.setOwn, St.send, BlockingQueue.St.push, Act.extra, active]
    omega
  | @decided i v rest grant htodo hfree =>
    have hsum := sum_update List.length s.todo i rest
    have hlength : (s.todo i).length = rest.length + 1 := by rw [htodo, List.length_cons]
    cases grant with
    | false =>
      rw [decide_false]
      unfold potential
      dsimp only [Act.extra, active]
      omega
    | true =>
      have hheld := sum_update (fun o : Option T => o.toList.length) s.holding i (some v)
      have hnone : (s.holding i).toList.length = 0 := by rw [hfree.1, Option.toList_none, List.length_nil]
      have hsome : (some v).toList.length = 1 := rfl
      rw [decide_true]
      unfold potential
      dsimp only [Act.extra, active]
      omega
  | @pushed i v hold hidle =>
    have hheld := sum_update (fun o : Option T => o.toList.length) s.holding i none
    have hsome : (s.holding i).toList.length = 1 := by rw [hold]; rfl
    have hnone : (none : Option T).toList.length = 0 := rfl
    have hcard : (insert (.producer i) s.bq.toOne).card = s.bq.toOne.card + 1 := Finset.card_insert_of_notMem hidle.2.1
    have hqueue : (s.bq.queue ++ [v]).length = s.bq.queue.length + 1 := by simp
    unfold potential
    dsimp only [St.setBq, St.setHolding, St.send, BlockingQueue.St.push, Act.extra, active]
    omega
  | @notified t wakes c ht hnotify =>
    have hactive : (active (s.setBq (s.bq.notifyOne t c))).card ≤ (active s).card + 1 := active_notifyOne rfl rfl hnotify
    have hcard : (s.bq.toOne.erase t).card + 1 = s.bq.toOne.card := Finset.card_erase_add_one ht
    unfold potential
    dsimp only [St.setBq, BlockingQueue.St.notifyOne, Act.extra] at hactive ⊢
    omega
  | shut hready hidle =>
    have hcard : (insert .main s.bq.toAll).card = s.bq.toAll.card + 1 := Finset.card_insert_of_notMem hidle.2.2
    have hopen := hready.2.2
    unfold potential
    dsimp only [St.setBq, St.close, BlockingQueue.St.shutdown, Act.extra, active]
    rw [hcard, hopen, Nat.mul_succ, cond_true, cond_false]
    omega
  | notifiedAll hmain =>
    have hactive := active_le (s.setBq (s.bq.notifyAll .main))
    have hcard : (s.bq.toAll.erase .main).card + 1 = s.bq.toAll.card := Finset.card_erase_add_one hmain
    unfold potential
    dsimp only [St.setBq, BlockingQueue.St.notifyAll, Act.extra] at hactive ⊢
    rw [← hcard, Nat.mul_succ]
    omega
  | @popped _ c v rest hcalls hqueue =>
    have hlength : s.bq.queue.length = rest.length + 1 := by rw [hqueue, List.length_cons]
    have hextra : a.extra = 0 := by rcases hcalls with ⟨rfl, -⟩ | ⟨rfl, -⟩ <;> rfl
    unfold potential
    dsimp only [St.setBq, St.collect, Cond.leave, active]
    omega
  | @finished _ c hcalls hqueue hdone =>
    have hextra : a.extra = 0 := by rcases hcalls with ⟨rfl, -⟩ | ⟨rfl, -⟩ <;> rfl
    have hactive : (active ((s.setBq (s.bq.setCv (s.bq.cv.leave (.consumer c)))).collect c .finished)).card < (active s).card := by
      refine active_lt ?_ (h.calls hcalls) (Or.inl (Finset.mem_insert_self c s.exited))
      intro d hd
      simp only [active, Finset.mem_filter, Finset.mem_univ, true_and] at hd ⊢
      exact ⟨fun hmem => hd.1 (Finset.mem_insert_of_mem hmem), hd.2⟩
    unfold potential
    dsimp only [St.setBq, St.collect, BlockingQueue.St.setCv] at hactive ⊢
    omega
  | @waits _ c hcalls hqueue hdone =>
    have hextra : a.extra = 0 := by rcases hcalls with ⟨rfl, -⟩ | ⟨rfl, -⟩ <;> rfl
    have hactive : (active (s.setBq (s.bq.setCv (s.bq.cv.join (.consumer c))))).card < (active s).card := by
      refine active_lt ?_ (h.calls hcalls) (Or.inr (Finset.mem_insert_self _ s.bq.cv.waiting))
      intro d hd
      simp only [active, Finset.mem_filter, Finset.mem_univ, true_and] at hd ⊢
      exact ⟨hd.1, fun hmem => hd.2 (Finset.mem_insert_of_mem hmem)⟩
    unfold potential
    dsimp only [St.setBq, BlockingQueue.St.setCv] at hactive ⊢
    omega
  | @spurious c hc =>
    have hactive : (active (s.setBq (s.bq.setCv (s.bq.cv.wake (.consumer c))))).card ≤ (active s).card + 1 :=
      active_wake rfl rfl
    unfold potential
    dsimp only [St.setBq, BlockingQueue.St.setCv, Act.extra] at hactive ⊢
    omega

theorem potential_init (own : List T) (todo : ι → List T) :
    potential (St.init own todo : St ι κ T) ≤ 5 * ∑ i, (todo i).length + 4 * own.length + 2 * Fintype.card κ + 2 := by
  have hactive := active_le (St.init own todo : St ι κ T)
  unfold potential
  simp only [St.init, BlockingQueue.St.init, Option.toList_none, List.length_nil, Finset.sum_const_zero, Finset.card_empty,
    cond_false, mul_zero, add_zero] at hactive ⊢
  omega

/-- **How long a run is.** Its steps are bounded by what there is to do, and two more for each spurious wake-up. -/
theorem length_le {acts : List (Act ι κ)} (hrun : run own todo acts = some s) :
    acts.length ≤ 5 * ∑ i, (todo i).length + 4 * own.length + 2 * Fintype.card κ + 2 + (acts.map Act.extra).sum := by
  have hpotential : ∀ (s : St ι κ T) (a : Act ι κ) (t : St ι κ T), step s a = some t → Inv own todo s ∧ Backed s →
      (Inv own todo t ∧ Backed t) ∧ potential t + 1 ≤ potential s + a.extra :=
    fun s a t hstep h => ⟨⟨step_inv h.1 h.2 hstep, step_backed h.2 hstep⟩, step_potential h.1 hstep⟩
  have hle := Machine.exec_length_le hpotential hrun ⟨init_inv, init_backed⟩
  have hstart := potential_init (κ := κ) own todo
  omega

end Length

end Runs

/-! ## The pool -/

/-- without producers, main pushed everything -/
theorem sentBy_none_eq [IsEmpty ι] (sent : List (Option ι × T)) : sentBy none sent = sent.map Prod.snd := by
  induction sent with
  | nil => rfl
  | cons p sent ih =>
    obtain ⟨q, v⟩ := p
    obtain rfl : q = none := by
      cases q with
      | none => rfl
      | some i => exact isEmptyElim i
    rw [List.map_cons, ← ih]
    rfl

/-- **The pool.** Main pushes `items` and calls `shutdown`, `n` consumers take. In every run, whatever the schedule: the items
taken so far are the first ones, in order; the run has a bounded number of steps, but for spurious wake-ups; and where no
thread can go on, every consumer has left its loop (so main returns) and every item has been taken once. -/
theorem pool_drains (n : ℕ) (hn : 0 < n) (items : List T) (acts : List (Act Empty (Fin n))) (s : St Empty (Fin n) T)
    (hrun : run items (fun i => i.elim) acts = some s) :
    s.taken.map Prod.snd <+: items ∧ acts.length ≤ 4 * items.length + 2 * n + 2 + (acts.map Act.extra).sum ∧
      (Stuck s → (∀ c, c ∈ s.exited) ∧ s.taken.map Prod.snd = items) := by
  obtain ⟨hinv, hbacked⟩ := run_inv hrun
  have hsent : s.sent.map Prod.snd ++ s.own = items := by
    rw [← sentBy_none_eq]
    exact hinv.own
  refine ⟨?_, ?_, fun hstuck => ?_⟩
  · rw [← hsent, hbacked.queue, List.append_assoc]
    exact List.prefix_append _ _
  · have hle := length_le hrun
    rw [Fintype.card_fin, Finset.sum_of_isEmpty] at hle
    omega
  · have : Nonempty (Fin n) := ⟨⟨0, hn⟩⟩
    obtain ⟨hexited, htaken, hown, -⟩ := stuck_done hrun hstuck
    rw [sentBy_none_eq] at hown
    exact ⟨hexited, htaken.trans hown⟩

/-- numerals of `Fin 2` -/
local instance neZeroTwo : NeZero 2 := ⟨two_ne_zero⟩

/-- two consumers; the first sleeps, and the second takes its value before the notification -/
def twoConsumers : List (Act Empty (Fin 2)) :=
  [.pop 0, .pushOwn, .pop 1, .notify .main (some (.consumer 0)), .resume 0, .pushOwn, .notify .main (some (.consumer 0)),
    .shutdown, .notifyAll, .resume 0, .pop 0, .pop 1]

theorem twoConsumers_final : (run [7, 8] (fun i : Empty => i.elim) twoConsumers).map (fun s => (s.taken, decide (Final s))) =
    some ([(1, 7), (0, 8)], true) := by decide +kernel

theorem pool_drains_twoConsumers : ∃ s, run [7, 8] (fun i : Empty => i.elim) twoConsumers = some s ∧
    s.taken = [(1, 7), (0, 8)] ∧ (∀ c, c ∈ s.exited) ∧ s.taken.map Prod.snd = [7, 8] := by
  obtain ⟨s, hrun, heq⟩ := Option.map_eq_some_iff.1 twoConsumers_final
  obtain ⟨htaken, hfinal⟩ := Prod.mk.inj heq
  exact ⟨s, hrun, htaken, (pool_drains 2 (by decide) [7, 8] twoConsumers s hrun).2.2 (stuck_of_final (of_decide_eq_true hfinal))⟩

end InterviewPrep.BlockingQueue.Program
