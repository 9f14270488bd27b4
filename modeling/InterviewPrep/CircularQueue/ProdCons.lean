/-
The blocking ring buffer of circularQueue/circularBufferStaticProdCons.cpp (`CircularBuffer<T>`), used by any number of
threads.

A locked section is one step. `push` and `pop` wait on a condition while their predicate is false; a thread that falls
asleep has released the lock, a woken one takes it again and starts over with the predicate. A thread that is not in a call
may make one at any time, in front of the woken ones. `notify_one` is called with the lock held, and the scheduler picks
whom it wakes: the pick is part of the action, as are spurious wake-ups.

A run is a list of actions with what each of them did: a value pushed, a push refused, a value popped, a `pop` that
returned false, a thread gone to sleep.

Results, for every capacity and every interleaving:
- `push_pop_fifo`: values come out in the order they went in, none lost, none twice; `size_` counts those inside; nothing
  goes in after `stop`, and `pop` returns false only when all is out;
- `no_lost_wakeup`: if a consumer sleeps, as many woken consumers have not looked yet as there are values; likewise for
  producers and free slots; after `stop` nobody sleeps.
-/
import InterviewPrep.Core.Condition
import InterviewPrep.Core.Machine
import InterviewPrep.Core.Window

namespace InterviewPrep.CircularQueue.ProdCons

/-! ## Model -/

/-- the members of `CircularBuffer`, and the arguments of the calls of `push` that sleep -/
structure St (ι T : Type) where
  buffer : ℕ → T
  capacity : ℕ
  head : ℕ
  tail : ℕ
  size : ℕ
  running : Bool
  notFull : Cond ι
  notEmpty : Cond ι
  item : ι → T

/-- `wakes` is the thread that `notify_one` picks -/
inductive Act (ι T : Type) where
  | push (i : ι) (item : T) (wakes : Option ι)
  | resumePush (i : ι) (wakes : Option ι)
  | pop (i : ι) (wakes : Option ι)
  | resumePop (i : ι) (wakes : Option ι)
  | stop
  | spuriousPush (i : ι)
  | spuriousPop (i : ι)

inductive Out (T : Type) where
  | waits
  | pushed (v : T)
  | refused
  | popped (v : T)
  | finished
  | quiet
  deriving DecidableEq

variable {ι T : Type} [DecidableEq ι]

namespace St

def init [Inhabited T] (capacity : ℕ) : St ι T :=
  ⟨fun _ => default, capacity, 0, 0, 0, true, Cond.empty, Cond.empty, fun _ => default⟩

def setNotFull (s : St ι T) (c : Cond ι) : St ι T := { s with notFull := c }

def setNotEmpty (s : St ι T) (c : Cond ι) : St ι T := { s with notEmpty := c }

/-- the thread sleeps on `not_full_` with its argument -/
def sleepFull (s : St ι T) (i : ι) (v : T) : St ι T :=
  { s with notFull := s.notFull.join i, item := Function.update s.item i v }

def write (s : St ι T) (v : T) : St ι T :=
  { s with
    buffer := Function.update s.buffer s.head v
    head := (s.head + 1) % s.capacity
    size := s.size + 1 }

def advance (s : St ι T) : St ι T := { s with tail := (s.tail + 1) % s.capacity, size := s.size - 1 }

/-- `push`, from the test of the predicate on -/
def push (s : St ι T) (i : ι) (v : T) (wakes : Option ι) : Option (St ι T × Out T) :=
  if s.size < s.capacity ∨ s.running = false then
    let s := s.setNotFull (s.notFull.leave i)
    if s.running = false then some (s, .refused)
    else (s.notEmpty.notifyOne wakes).map fun c => ((s.write v).setNotEmpty c, .pushed v)
  else some (s.sleepFull i v, .waits)

/-- `pop`, from the test of the predicate on -/
def pop (s : St ι T) (i : ι) (wakes : Option ι) : Option (St ι T × Out T) :=
  if 0 < s.size ∨ s.running = false then
    let s := s.setNotEmpty (s.notEmpty.leave i)
    if s.size = 0 ∧ s.running = false then some (s, .finished)
    else (s.notFull.notifyOne wakes).map fun c => (s.advance.setNotFull c, .popped (s.buffer s.tail))
  else some (s.setNotEmpty (s.notEmpty.join i), .waits)

def stop (s : St ι T) : St ι T :=
  { s with running := false, notFull := s.notFull.notifyAll, notEmpty := s.notEmpty.notifyAll }

/-- the thread is not in a call -/
def idle (s : St ι T) (i : ι) : Prop := i ∉ s.notFull.busy ∧ i ∉ s.notEmpty.busy

instance (s : St ι T) (i : ι) : Decidable (s.idle i) := inferInstanceAs (Decidable (_ ∧ _))

end St

def step (s : St ι T) : Act ι T → Option (St ι T × Out T)
  | .push i v wakes => if s.idle i then s.push i v wakes else none
  | .resumePush i wakes => if i ∈ s.notFull.woken then s.push i (s.item i) wakes else none
  | .pop i wakes => if s.idle i then s.pop i wakes else none
  | .resumePop i wakes => if i ∈ s.notEmpty.woken then s.pop i wakes else none
  | .stop => some (s.stop, .quiet)
  | .spuriousPush i => if i ∈ s.notFull.waiting then some (s.setNotFull (s.notFull.wake i), .quiet) else none
  | .spuriousPop i => if i ∈ s.notEmpty.waiting then some (s.setNotEmpty (s.notEmpty.wake i), .quiet) else none

def run [Inhabited T] (capacity : ℕ) : List (Act ι T) → Option (St ι T × List (Out T)) :=
  Machine.run step (St.init capacity)

/-- values accepted by `push`, in order -/
def accepted (log : List (Out T)) : List T :=
  log.filterMap fun
    | .pushed v => some v
    | _ => none

/-- values delivered by `pop`, in order -/
def delivered (log : List (Out T)) : List T :=
  log.filterMap fun
    | .popped v => some v
    | _ => none

/-! ## What a step can do -/

inductive Effect (s : St ι T) : Act ι T → St ι T → Out T → Prop
  | pushed {a : Act ι T} {i : ι} {v : T} {wakes : Option ι} {c : Cond ι} (ha : a ≠ .stop)
      (hroom : s.size < s.capacity) (hrunning : s.running = true) (hnotify : s.notEmpty.notifyOne wakes = some c) :
      Effect s a (((s.setNotFull (s.notFull.leave i)).write v).setNotEmpty c) (.pushed v)
  | refused {a : Act ι T} {i : ι} (ha : a ≠ .stop) (hstopped : s.running = false) :
      Effect s a (s.setNotFull (s.notFull.leave i)) .refused
  | pushWaits {a : Act ι T} {i : ι} {v : T} (ha : a ≠ .stop) (hfull : s.capacity ≤ s.size)
      (hrunning : s.running = true) : Effect s a (s.sleepFull i v) .waits
  | popped {a : Act ι T} {i : ι} {wakes : Option ι} {c : Cond ι} (ha : a ≠ .stop) (hsome : 0 < s.size)
      (hnotify : s.notFull.notifyOne wakes = some c) :
      Effect s a ((s.setNotEmpty (s.notEmpty.leave i)).advance.setNotFull c) (.popped (s.buffer s.tail))
  | finished {a : Act ι T} {i : ι} (ha : a ≠ .stop) (hempty : s.size = 0) (hstopped : s.running = false) :
      Effect s a (s.setNotEmpty (s.notEmpty.leave i)) .finished
  | popWaits {a : Act ι T} {i : ι} (ha : a ≠ .stop) (hempty : s.size = 0) (hrunning : s.running = true) :
      Effect s a (s.setNotEmpty (s.notEmpty.join i)) .waits
  | stop : Effect s .stop s.stop .quiet
  | wakePush {a : Act ι T} {i : ι} (ha : a ≠ .stop) : Effect s a (s.setNotFull (s.notFull.wake i)) .quiet
  | wakePop {a : Act ι T} {i : ι} (ha : a ≠ .stop) : Effect s a (s.setNotEmpty (s.notEmpty.wake i)) .quiet

variable {s s' : St ι T} {a : Act ι T} {out : Out T} {i : ι} {v : T} {wakes : Option ι}

theorem push_effect (ha : a ≠ .stop) (h : s.push i v wakes = some (s', out)) : Effect s a s' out := by
  unfold St.push at h
  dsimp only at h
  split_ifs at h with hgo hstopped
  · obtain ⟨rfl, rfl⟩ := Prod.mk.inj (Option.some.inj h)
    exact .refused ha hstopped
  · obtain ⟨c, hnotify, heq⟩ := Option.map_eq_some_iff.1 h
    obtain ⟨rfl, rfl⟩ := Prod.mk.inj heq
    exact .pushed ha (hgo.resolve_right hstopped) (Bool.eq_true_of_not_eq_false hstopped) hnotify
  · obtain ⟨rfl, rfl⟩ := Prod.mk.inj (Option.some.inj h)
    push Not at hgo
    exact .pushWaits ha hgo.1 (Bool.eq_true_of_not_eq_false hgo.2)

theorem pop_effect (ha : a ≠ .stop) (h : s.pop i wakes = some (s', out)) : Effect s a s' out := by
  unfold St.pop at h
  dsimp only at h
  split_ifs at h with hgo hend
  · obtain ⟨rfl, rfl⟩ := Prod.mk.inj (Option.some.inj h)
    exact .finished ha hend.1 hend.2
  · obtain ⟨c, hnotify, heq⟩ := Option.map_eq_some_iff.1 h
    obtain ⟨rfl, rfl⟩ := Prod.mk.inj heq
    have hsome : 0 < s.size := by
      rcases hgo with hpos | hstopped
      · exact hpos
      · exact Nat.pos_of_ne_zero fun hzero => hend ⟨hzero, hstopped⟩
    exact .popped ha hsome hnotify
  · obtain ⟨rfl, rfl⟩ := Prod.mk.inj (Option.some.inj h)
    push Not at hgo
    exact .popWaits ha (Nat.le_zero.1 hgo.1) (Bool.eq_true_of_not_eq_false hgo.2)

theorem step_effect (h : step s a = some (s', out)) : Effect s a s' out := by
  cases a with
  | push i v wakes =>
    rw [step] at h
    split_ifs at h
    exact push_effect (by simp) h
  | resumePush i wakes =>
    rw [step] at h
    split_ifs at h
    exact push_effect (by simp) h
  | pop i wakes =>
    rw [step] at h
    split_ifs at h
    exact pop_effect (by simp) h
  | resumePop i wakes =>
    rw [step] at h
    split_ifs at h
    exact pop_effect (by simp) h
  | stop =>
    obtain ⟨rfl, rfl⟩ := Prod.mk.inj (Option.some.inj h)
    exact .stop
  | spuriousPush i =>
    rw [step] at h
    split_ifs at h
    obtain ⟨rfl, rfl⟩ := Prod.mk.inj (Option.some.inj h)
    exact .wakePush (by simp)
  | spuriousPop i =>
    rw [step] at h
    split_ifs at h
    obtain ⟨rfl, rfl⟩ := Prod.mk.inj (Option.some.inj h)
    exact .wakePop (by simp)

/-! ## The queue -/

/-- the window holds the values accepted and not delivered; `running_` is cleared by `stop` only -/
structure Inv (cap : ℕ) (s : St ι T) (acts : List (Act ι T)) (log : List (Out T)) : Prop where
  capacity : s.capacity = cap
  running : s.running = true ↔ .stop ∉ acts
  queue : ∃ q, Window cap s.buffer s.head s.tail q ∧ s.size = q.length ∧ accepted log = delivered log ++ q

variable {cap : ℕ} {acts : List (Act ι T)} {log : List (Out T)}

omit [DecidableEq ι] in
theorem Inv.size_le (h : Inv cap s acts log) : s.size ≤ cap := by
  obtain ⟨q, hq, hsize, -⟩ := h.queue
  exact hsize ▸ hq.bounded

omit [DecidableEq ι] in
theorem mem_snoc_of_ne (ha : a ≠ .stop) : .stop ∉ acts ++ [a] ↔ .stop ∉ acts := by
  simp [ha.symm]

omit [DecidableEq ι] in
/-- a step that moves no value -/
theorem Inv.quiet (h : Inv cap s acts log) (ha : a ≠ .stop) (hbuffer : s'.buffer = s.buffer)
    (hcapacity : s'.capacity = s.capacity) (hhead : s'.head = s.head) (htail : s'.tail = s.tail)
    (hsize : s'.size = s.size) (hrunning : s'.running = s.running) (haccepted : accepted [out] = [])
    (hdelivered : delivered [out] = []) : Inv cap s' (acts ++ [a]) (log ++ [out]) := by
  obtain ⟨q, hq, hlen, hlog⟩ := h.queue
  refine ⟨hcapacity.trans h.capacity, ?_, q, ?_, hsize.trans hlen, ?_⟩
  · rw [hrunning, mem_snoc_of_ne ha]
    exact h.running
  · rw [hbuffer, hhead, htail]
    exact hq
  · unfold accepted delivered at *
    rw [List.filterMap_append, List.filterMap_append, haccepted, hdelivered, hlog, List.append_nil, List.append_nil]

theorem step_inv (h : Inv cap s acts log) (hstep : step s a = some (s', out)) :
    Inv cap s' (acts ++ [a]) (log ++ [out]) := by
  cases step_effect hstep with
  | @pushed _ _ v _ _ ha hroom hrunning hnotify =>
    obtain ⟨q, hq, hsize, hlog⟩ := h.queue
    rw [h.capacity, hsize] at hroom
    refine ⟨h.capacity, ?_, q ++ [v], ?_, ?_, ?_⟩
    · rw [mem_snoc_of_ne ha]
      exact h.running
    · simpa [St.write, St.setNotFull, St.setNotEmpty, h.capacity] using hq.push hroom v
    · simp [St.write, St.setNotFull, St.setNotEmpty, hsize]
    · unfold accepted delivered at *
      simp [hlog]
  | popped ha hsome hnotify =>
    obtain ⟨q, hq, hsize, hlog⟩ := h.queue
    rcases q with - | ⟨x, q⟩
    · rw [hsize] at hsome
      exact absurd hsome (Nat.lt_irrefl 0)
    · refine ⟨h.capacity, ?_, q, ?_, ?_, ?_⟩
      · rw [mem_snoc_of_ne ha]
        exact h.running
      · simpa [St.advance, St.setNotFull, St.setNotEmpty, h.capacity] using hq.pop
      · simp [St.advance, St.setNotFull, St.setNotEmpty, hsize]
      · have hread := hq.read_tail
        unfold accepted delivered at *
        simp [hlog, hread]
  | stop =>
    obtain ⟨q, hq, hsize, hlog⟩ := h.queue
    refine ⟨h.capacity, ?_, q, hq, hsize, ?_⟩
    · simp [St.stop]
    · unfold accepted delivered at *
      simp [hlog]
  | refused ha _ => exact h.quiet ha rfl rfl rfl rfl rfl rfl rfl rfl
  | pushWaits ha _ _ => exact h.quiet ha rfl rfl rfl rfl rfl rfl rfl rfl
  | finished ha _ _ => exact h.quiet ha rfl rfl rfl rfl rfl rfl rfl rfl
  | popWaits ha _ _ => exact h.quiet ha rfl rfl rfl rfl rfl rfl rfl rfl
  | wakePush ha => exact h.quiet ha rfl rfl rfl rfl rfl rfl rfl rfl
  | wakePop ha => exact h.quiet ha rfl rfl rfl rfl rfl rfl rfl rfl

section Runs

variable [Inhabited T]

omit [DecidableEq ι] in
theorem init_inv (hcap : 1 ≤ cap) : Inv cap (St.init cap : St ι T) [] [] where
  capacity := rfl
  running := by simp [St.init]
  queue := ⟨[], Window.empty hcap _, rfl, rfl⟩

theorem run_inv (hcap : 1 ≤ cap) (hrun : run cap acts = some (s, log)) : Inv cap s acts log :=
  Machine.run_inv (P := Inv cap) (fun _ _ _ _ _ _ h hstep => step_inv h hstep) hrun (init_inv hcap)

/-- **Order and shutdown.** In every run with capacity at least 1: the values delivered are a prefix of the values accepted,
both in order; `size_` is the difference of their numbers and at most the capacity. The next step, whatever it is, accepts
a value only if there was no `stop`, and makes a `pop` return false only if there was one and every value is out. -/
theorem push_pop_fifo (cap : ℕ) (hcap : 1 ≤ cap) (acts : List (Act ι T)) (s : St ι T) (log : List (Out T))
    (hrun : run cap acts = some (s, log)) :
    delivered log <+: accepted log ∧ s.size + (delivered log).length = (accepted log).length ∧ s.size ≤ cap ∧
      ∀ a s' out, step s a = some (s', out) →
        (∀ v, out = .pushed v → .stop ∉ acts) ∧
        (out = .finished → s.running = false ∧ delivered log = accepted log) := by
  have h := run_inv hcap hrun
  obtain ⟨q, hq, hsize, hlog⟩ := h.queue
  refine ⟨hlog ▸ List.prefix_append _ _, ?_, h.size_le, ?_⟩
  · rw [hsize, hlog, List.length_append, Nat.add_comm]
  · intro a s' out hstep
    constructor
    · rintro v rfl
      cases step_effect hstep with
      | pushed ha hroom hrunning hnotify => exact h.running.1 hrunning
    · rintro rfl
      cases step_effect hstep with
      | finished ha hempty hstopped =>
        have hnil : q = [] := List.eq_nil_of_length_eq_zero (hsize.symm.trans hempty)
        rw [hlog, hnil, List.append_nil]
        exact ⟨hstopped, rfl⟩

/-- thread 0 sleeps for a value, thread 1 hands it over, thread 2 has no room -/
def handover : List (Act ℕ ℕ) := [.pop 0 none, .push 1 7 (some 0), .push 2 8 none]

theorem handover_log : (run 1 handover).map Prod.snd = some [.waits, .pushed 7, .waits] := by decide

theorem push_pop_fifo_handover :
    ∃ s log, run 1 handover = some (s, log) ∧ s.size + (delivered log).length = 1 := by
  obtain ⟨⟨s, log⟩, hrun, hlog⟩ := Option.map_eq_some_iff.1 handover_log
  refine ⟨s, log, hrun, ?_⟩
  rw [(push_pop_fifo 1 (by decide) handover s log hrun).2.1, show log = _ from hlog]
  rfl

/-! ## Wake-ups -/

/-- while running, both conditions are covered; afterwards nobody sleeps -/
structure Awake (s : St ι T) : Prop where
  consumers : s.running = true → s.notEmpty.Covered s.size
  producers : s.running = true → s.notFull.Covered (s.capacity - s.size)
  stopped : s.running = false → s.notEmpty.waiting = ∅ ∧ s.notFull.waiting = ∅

omit [Inhabited T] in
theorem step_awake (h : Awake s) (hsize : s.size ≤ s.capacity) (hstep : step s a = some (s', out)) : Awake s' := by
  cases step_effect hstep with
  | @pushed _ i _ _ c ha hroom hrunning hnotify =>
    refine ⟨fun _ => (h.consumers hrunning).notifyOne hnotify, fun _ => ?_, fun hstopped => ?_⟩
    · -- a slot less for the producers
      have hslots : s.capacity - s.size = s.capacity - (s.size + 1) + 1 := by omega
      have hcovered := h.producers hrunning
      rw [hslots] at hcovered
      exact hcovered.leave i
    · exact absurd (hrunning.symm.trans hstopped) (by decide)
  | @refused _ i ha hstopped =>
    refine ⟨fun hrunning => absurd (hrunning.symm.trans hstopped) (by decide),
      fun hrunning => absurd (hrunning.symm.trans hstopped) (by decide), fun _ => h.stopped hstopped⟩
  | @pushWaits _ i v ha hfull hrunning =>
    refine ⟨fun _ => h.consumers hrunning, fun _ => ?_, fun hstopped => ?_⟩
    · -- no slot is free
      have hnone : s.capacity - s.size = 0 := Nat.sub_eq_zero_of_le hfull
      show Cond.Covered _ (s.capacity - s.size)
      rw [hnone]
      exact Cond.covered_zero _
    · exact absurd (hrunning.symm.trans hstopped) (by decide)
  | @popped _ i _ c ha hsome hnotify =>
    refine ⟨fun hrunning => ?_, fun hrunning => ?_, fun hstopped => ?_⟩
    · have hvalues : s.size = s.size - 1 + 1 := (Nat.sub_add_cancel hsome).symm
      have hcovered := h.consumers hrunning
      rw [hvalues] at hcovered
      exact hcovered.leave i
    · have hcovered := (h.producers hrunning).notifyOne hnotify
      exact hcovered.mono (show s.capacity - (s.size - 1) ≤ s.capacity - s.size + 1 by omega)
    · obtain ⟨hconsumers, hproducers⟩ := h.stopped hstopped
      refine ⟨hconsumers, Finset.subset_empty.1 ?_⟩
      rw [← hproducers]
      exact Cond.waiting_notifyOne hnotify
  | @finished _ i ha hempty hstopped =>
    refine ⟨fun hrunning => absurd (hrunning.symm.trans hstopped) (by decide),
      fun hrunning => absurd (hrunning.symm.trans hstopped) (by decide), fun _ => h.stopped hstopped⟩
  | @popWaits _ i ha hempty hrunning =>
    refine ⟨fun _ => ?_, fun _ => h.producers hrunning, fun hstopped => ?_⟩
    · show Cond.Covered _ s.size
      rw [hempty]
      exact Cond.covered_zero _
    · exact absurd (hrunning.symm.trans hstopped) (by decide)
  | stop =>
    exact ⟨fun hrunning => absurd hrunning (by simp [St.stop]), fun hrunning => absurd hrunning (by simp [St.stop]),
      fun _ => ⟨rfl, rfl⟩⟩
  | @wakePush _ i ha =>
    refine ⟨h.consumers, fun hrunning => (h.producers hrunning).wake i, fun hstopped => ?_⟩
    obtain ⟨hconsumers, hproducers⟩ := h.stopped hstopped
    exact ⟨hconsumers, by simp [St.setNotFull, Cond.wake, hproducers]⟩
  | @wakePop _ i ha =>
    refine ⟨fun hrunning => (h.consumers hrunning).wake i, h.producers, fun hstopped => ?_⟩
    obtain ⟨hconsumers, hproducers⟩ := h.stopped hstopped
    exact ⟨by simp [St.setNotEmpty, Cond.wake, hconsumers], hproducers⟩

omit [DecidableEq ι] in
theorem init_awake (cap : ℕ) : Awake (St.init cap : St ι T) where
  consumers _ := Cond.covered_of_empty rfl _
  producers _ := Cond.covered_of_empty rfl _
  stopped hstopped := by cases hstopped

/-- **No lost wake-up.** In every run with capacity at least 1, while `running_`: if a consumer sleeps, at least `size_`
woken consumers have not looked again, and if a producer sleeps, at least `capacity_ - size_` woken producers have not.
After `stop` nobody sleeps. -/
theorem no_lost_wakeup (cap : ℕ) (hcap : 1 ≤ cap) (acts : List (Act ι T)) (s : St ι T) (log : List (Out T))
    (hrun : run cap acts = some (s, log)) :
    (s.running = true → (s.notEmpty.waiting.Nonempty → s.size ≤ s.notEmpty.woken.card) ∧
      (s.notFull.waiting.Nonempty → cap - s.size ≤ s.notFull.woken.card)) ∧
      (.stop ∈ acts → s.notEmpty.waiting = ∅ ∧ s.notFull.waiting = ∅) := by
  have hboth : Inv cap s acts log ∧ Awake s := by
    refine Machine.run_inv (P := fun s acts log => Inv cap s acts log ∧ Awake s) ?_ hrun ⟨init_inv hcap, init_awake cap⟩
    intro s acts log a s' out ⟨hinv, hawake⟩ hstep
    have hsize : s.size ≤ s.capacity := hinv.capacity.symm ▸ hinv.size_le
    exact ⟨step_inv hinv hstep, step_awake hawake hsize hstep⟩
  obtain ⟨hinv, hawake⟩ := hboth
  constructor
  · intro hrunning
    have hproducers := hawake.producers hrunning
    rw [hinv.capacity] at hproducers
    exact ⟨hawake.consumers hrunning, hproducers⟩
  · intro hstop
    apply hawake.stopped
    rw [← Bool.not_eq_true, hinv.running]
    exact fun hno => hno hstop

/-- thread 2 sleeps for room: none is free, so nobody need be awake -/
theorem no_lost_wakeup_handover :
    ∃ s log, run 1 handover = some (s, log) ∧ s.running = true ∧ (2 : ℕ) ∈ s.notFull.waiting ∧
      1 - s.size ≤ s.notFull.woken.card := by
  obtain ⟨⟨s, log⟩, hrun, -⟩ := Option.map_eq_some_iff.1 handover_log
  have hstate : (run 1 handover).map (fun p => (p.1.running, decide (2 ∈ p.1.notFull.waiting))) = some (true, true) := by
    decide
  rw [hrun, Option.map_some, Option.some.injEq, Prod.mk.injEq, decide_eq_true_eq] at hstate
  exact ⟨s, log, hrun, hstate.1, hstate.2,
    ((no_lost_wakeup 1 (by decide) handover s log hrun).1 hstate.1).2 ⟨2, hstate.2⟩⟩

end Runs

end InterviewPrep.CircularQueue.ProdCons
