/-
The software timers of timer/timer_pthread.cpp: five slots, a tick that queues the index of every slot that expires, and a
task thread that empties the queue and calls what the slots then hold.

`timer_start`, `timer_stop`, `TimerInterruptFunction` and one emptying of the queue by `RunTasksThread` are each done with
the mutex held and are one step each, in any order. A function pointer may be null. The calls of `timer_start` are numbered;
a slot remembers the call that set it, and a queued index the call whose expiry queued it. Nothing in the source does: the
callback is looked up when the queue is emptied, and by then the slot may have been stopped, or given to another timer.

- `calls_match`: if no slot with a queued index is stopped, or given to a timer with another callback, and no timer is
  started with a null callback, then every call made by the task thread is of the callback of the expired timer. Whenever
  one of these is done, the run can go on to a call that is not;
- `stopped_in_queue`, `reused_in_queue` are such runs;
- `expires_late`: the countdown is tested for 0 before it is decremented, so a timer with timeout T is queued on every
  (T + 1)st tick, whatever the other slots do (`Tracks` is what its slot holds after each tick).
-/
import InterviewPrep.Core.Machine

namespace InterviewPrep.Timer

/-! ## Model -/

/-- `TimerTask_t`, with the number of the `timer_start` that set it -/
structure TimerTask (Callback : Type) where
  enable : Bool
  periodic : Bool
  reload : UInt32
  curr : UInt32
  callback : Option Callback
  owner : ℕ

structure St (Callback : Type) where
  task : Fin 5 → TimerTask Callback
  /-- `Task_queue`, with the owner at the expiry -/
  queue : List (Fin 5 × ℕ)
  /-- the callbacks given to `timer_start`, by number -/
  starts : List (Option Callback)
  /-- the calls of the task thread: owner at the expiry, pointer called -/
  calls : List (ℕ × Option Callback)

inductive Act (Callback : Type) where
  | start (callback : Option Callback) (timeout : UInt32) (periodic : Bool)
  | stop (timerId : UInt32)
  | tick
  | drain

variable {Callback : Type}

namespace TimerTask

/-- this tick puts the index in the queue -/
def expires (t : TimerTask Callback) : Bool := t.enable && t.curr == 0

/-- the slot after a tick -/
def tick (t : TimerTask Callback) : TimerTask Callback :=
  if t.enable = true then
    if t.curr = 0 then
      if t.periodic = false then { t with enable := false } else { t with curr := t.reload }
    else { t with curr := t.curr - 1 }
  else t

end TimerTask

namespace St

def setTask (s : St Callback) (i : Fin 5) (t : TimerTask Callback) : St Callback :=
  { s with task := Function.update s.task i t }

def push (s : St Callback) (i : Fin 5) (owner : ℕ) : St Callback := { s with queue := s.queue ++ [(i, owner)] }

/-- the body of the loop of `TimerInterruptFunction` -/
def tickSlot (s : St Callback) (i : Fin 5) : St Callback :=
  let s' := s.setTask i (s.task i).tick
  if (s.task i).expires then s'.push i (s.task i).owner else s'

def timerInterruptFunction (s : St Callback) : St Callback := (List.finRange 5).foldl tickSlot s

/-- the first slot that is not enabled -/
def emptySlot (s : St Callback) : Option (Fin 5) := (List.finRange 5).find? fun i => !(s.task i).enable

def log (s : St Callback) (callback : Option Callback) : St Callback := { s with starts := s.starts ++ [callback] }

/-- enable the slot with the parameters -/
def occupy (s : St Callback) (i : Fin 5) (callback : Option Callback) (timeout : UInt32) (periodic : Bool) :
    St Callback :=
  (s.log callback).setTask i ⟨true, periodic, timeout, timeout, callback, s.starts.length⟩

/-- the second part is what `*timerId` is set to -/
def timerStart (s : St Callback) (callback : Option Callback) (timeout : UInt32) (periodic : Bool) :
    St Callback × Option (Fin 5) :=
  match s.emptySlot with
  | some i => (s.occupy i callback timeout periodic, some i)
  | none => (s.log callback, none)

/-- an id out of range is read out of bounds -/
def timerStop (s : St Callback) (timerId : UInt32) : Option (St Callback) :=
  if h : timerId.toNat < 5 then
    let i : Fin 5 := ⟨timerId.toNat, h⟩
    if (s.task i).enable = false then some s
    else some (s.setTask i ⟨false, false, 0xFFFFFFFF, 0xFFFFFFFF, none, (s.task i).owner⟩)
  else none

/-- what `RunTasksThread` does while it has the mutex -/
def runTasks (s : St Callback) : St Callback :=
  { s with queue := [], calls := s.calls ++ s.queue.map fun e => (e.2, (s.task e.1).callback) }

/-- static storage -/
def zero : St Callback := ⟨fun _ => ⟨false, false, 0, 0, none, 0⟩, [], [], []⟩

end St

def step (s : St Callback) : Act Callback → Option (St Callback)
  | .start callback timeout periodic => some (s.timerStart callback timeout periodic).1
  | .stop timerId => s.timerStop timerId
  | .tick => some s.timerInterruptFunction
  | .drain => some s.runTasks

/-- `InitTimerTask` -/
def initTimerTask : Option (St Callback) := Machine.exec step .zero [.stop 0, .stop 1, .stop 2, .stop 3, .stop 4]

/-- all slots are found stopped -/
theorem initTimerTask_eq : initTimerTask = some (.zero : St Callback) := rfl

def run (acts : List (Act Callback)) : Option (St Callback) := initTimerTask.bind fun s => Machine.exec step s acts

/-- the callback called is that of the timer which expired, and is not null -/
def Right (s : St Callback) (call : ℕ × Option Callback) : Prop := call.2.isSome ∧ s.starts[call.1]? = some call.2

/-- a slot that is started gets a callback; an index in the queue keeps the callback of the timer which expired -/
def Clear (s : St Callback) : Act Callback → Prop
  | .start callback _ _ => ∀ i, s.emptySlot = some i →
      callback.isSome ∧ ∀ o, (i, o) ∈ s.queue → s.starts[o]? = some callback
  | .stop timerId => ∀ i : Fin 5, i.val = timerId.toNat → (s.task i).enable = true → ∀ o, (i, o) ∉ s.queue
  | .tick => True
  | .drain => True

/-! ## The tick -/

variable {s : St Callback} {i : Fin 5}

@[simp] theorem tickSlot_task (s : St Callback) (i : Fin 5) :
    (s.tickSlot i).task = Function.update s.task i (s.task i).tick := by
  rw [St.tickSlot]
  split_ifs <;> rfl

theorem tickSlot_queue (s : St Callback) (i : Fin 5) :
    (s.tickSlot i).queue = s.queue ++ if (s.task i).expires then [(i, (s.task i).owner)] else [] := by
  rw [St.tickSlot]
  split_ifs
  · rfl
  · exact (List.append_nil _).symm

@[simp] theorem tickSlot_log (s : St Callback) (i : Fin 5) :
    (s.tickSlot i).starts = s.starts ∧ (s.tickSlot i).calls = s.calls := by
  rw [St.tickSlot]
  split_ifs <;> exact ⟨rfl, rfl⟩

/-- the loop over slots, each of them once -/
theorem foldl_tickSlot {is : List (Fin 5)} (hnodup : is.Nodup) (s : St Callback) :
    (∀ i, (is.foldl St.tickSlot s).task i = if i ∈ is then (s.task i).tick else s.task i) ∧
      (is.foldl St.tickSlot s).queue =
        s.queue ++ is.flatMap (fun i => if (s.task i).expires then [(i, (s.task i).owner)] else []) ∧
      (is.foldl St.tickSlot s).starts = s.starts ∧ (is.foldl St.tickSlot s).calls = s.calls := by
  induction is generalizing s with
  | nil => simp
  | cons j is ih =>
    rw [List.nodup_cons] at hnodup
    obtain ⟨htask, hqueue, hstarts, hcalls⟩ := ih hnodup.2 (s.tickSlot j)
    have hother : ∀ i ∈ is, (s.tickSlot j).task i = s.task i := by
      intro i hi
      rw [tickSlot_task, Function.update_of_ne]
      exact fun heq => hnodup.1 (heq ▸ hi)
    rw [List.foldl_cons]
    refine ⟨fun i => ?_, ?_, hstarts.trans (tickSlot_log s j).1, hcalls.trans (tickSlot_log s j).2⟩
    · rw [htask i]
      by_cases hi : i ∈ is
      · rw [if_pos hi, if_pos (List.mem_cons_of_mem j hi), hother i hi]
      · rw [if_neg hi, tickSlot_task]
        rcases eq_or_ne i j with rfl | hne
        · rw [Function.update_self, if_pos List.mem_cons_self]
        · rw [Function.update_of_ne hne, if_neg]
          rw [List.mem_cons]
          exact not_or.2 ⟨hne, hi⟩
    · rw [hqueue, tickSlot_queue, List.append_assoc, List.flatMap_cons]
      congr 2
      apply List.flatMap_congr
      intro i hi
      rw [hother i hi]

theorem tick_task (s : St Callback) (i : Fin 5) : s.timerInterruptFunction.task i = (s.task i).tick := by
  have htask := (foldl_tickSlot (List.nodup_finRange 5) s).1 i
  rwa [if_pos (List.mem_finRange i)] at htask

/-- the tick queues the slots that expire, after what is there -/
theorem mem_tick_queue {o : ℕ} : (i, o) ∈ s.timerInterruptFunction.queue ↔
    (i, o) ∈ s.queue ∨ ((s.task i).expires = true ∧ o = (s.task i).owner) := by
  rw [St.timerInterruptFunction, (foldl_tickSlot (List.nodup_finRange 5) s).2.1, List.mem_append, List.mem_flatMap]
  constructor
  · intro hmem
    rcases hmem with hold | ⟨j, -, hj⟩
    · exact Or.inl hold
    · right
      split_ifs at hj with hexpires
      · obtain ⟨rfl, rfl⟩ := Prod.mk.inj (List.mem_singleton.1 hj)
        exact ⟨hexpires, rfl⟩
      · cases hj
  · intro hmem
    rcases hmem with hold | ⟨hexpires, rfl⟩
    · exact Or.inl hold
    · right
      refine ⟨i, List.mem_finRange i, ?_⟩
      rw [if_pos hexpires]
      exact List.mem_singleton_self _

theorem tick_log (s : St Callback) :
    s.timerInterruptFunction.starts = s.starts ∧ s.timerInterruptFunction.calls = s.calls :=
  (foldl_tickSlot (List.nodup_finRange 5) s).2.2

@[simp] theorem TimerTask.tick_callback (t : TimerTask Callback) : t.tick.callback = t.callback := by
  unfold TimerTask.tick
  split_ifs <;> rfl

@[simp] theorem TimerTask.tick_owner (t : TimerTask Callback) : t.tick.owner = t.owner := by
  unfold TimerTask.tick
  split_ifs <;> rfl

/-- a tick enables no slot -/
theorem TimerTask.enable_of_tick {t : TimerTask Callback} (h : t.tick.enable = true) : t.enable = true := by
  by_contra hoff
  rw [TimerTask.tick, if_neg hoff] at h
  exact hoff h

/-- a slot that counts down is one less after a tick -/
theorem TimerTask.tick_counting {t : TimerTask Callback} (henable : t.enable = true) (hcurr : t.curr ≠ 0) :
    t.tick = { t with curr := t.curr - 1 } ∧ t.tick.curr.toNat + 1 = t.curr.toNat := by
  have htick : t.tick = { t with curr := t.curr - 1 } := by rw [TimerTask.tick, if_pos henable, if_neg hcurr]
  have hne : t.curr.toNat ≠ 0 := fun hz => hcurr (UInt32.toNat_inj.1 hz)
  have hone : (1 : UInt32) ≤ t.curr := by
    rw [UInt32.le_iff_toNat_le, UInt32.toNat_one]
    omega
  refine ⟨htick, ?_⟩
  rw [htick]
  dsimp only
  rw [UInt32.toNat_sub_of_le _ _ hone, UInt32.toNat_one]
  omega

/-! ## While the queue is respected -/

/-- what is enabled, queued or called is a timer with its callback -/
structure Inv (s : St Callback) : Prop where
  enabled : ∀ i, (s.task i).enable = true → Right s ((s.task i).owner, (s.task i).callback)
  queued : ∀ i o, (i, o) ∈ s.queue → Right s (o, (s.task i).callback)
  called : ∀ c ∈ s.calls, Right s c

theorem Right.later {s' : St Callback} {call : ℕ × Option Callback} (h : Right s call) {callback : Option Callback}
    (hstarts : s'.starts = s.starts ++ [callback]) : Right s' call := by
  refine ⟨h.1, ?_⟩
  rw [hstarts, List.getElem?_append_left (List.getElem?_eq_some_iff.1 h.2).1, h.2]

theorem timerStart_of_empty (hempty : s.emptySlot = some i) (callback : Option Callback) (timeout : UInt32)
    (periodic : Bool) : (s.timerStart callback timeout periodic).1 = s.occupy i callback timeout periodic := by
  rw [St.timerStart, hempty]

theorem timerStart_of_full (hfull : s.emptySlot = none) (callback : Option Callback) (timeout : UInt32)
    (periodic : Bool) : (s.timerStart callback timeout periodic).1 = s.log callback := by
  rw [St.timerStart, hfull]

/-- the slot that is started, and the others -/
theorem occupy_task (s : St Callback) (i : Fin 5) (callback : Option Callback) (timeout : UInt32) (periodic : Bool) :
    (s.occupy i callback timeout periodic).task i = ⟨true, periodic, timeout, timeout, callback, s.starts.length⟩ ∧
      ∀ j ≠ i, (s.occupy i callback timeout periodic).task j = s.task j :=
  ⟨Function.update_self .., fun _ hne => Function.update_of_ne hne ..⟩

theorem start_inv (h : Inv s) {callback : Option Callback} {timeout : UInt32} {periodic : Bool}
    (hclear : Clear s (.start callback timeout periodic)) : Inv (s.timerStart callback timeout periodic).1 := by
  cases hempty : s.emptySlot with
  | none =>
    rw [timerStart_of_full hempty]
    exact ⟨fun i hi => (h.enabled i hi).later rfl, fun i o hi => (h.queued i o hi).later rfl,
      fun c hc => (h.called c hc).later rfl⟩
  | some i =>
    obtain ⟨hsome, hqueue⟩ := hclear i hempty
    obtain ⟨hself, hothers⟩ := occupy_task s i callback timeout periodic
    rw [timerStart_of_empty hempty]
    refine ⟨fun j hj => ?_, fun j o hj => ?_, fun c hc => (h.called c hc).later rfl⟩
    · rcases eq_or_ne j i with rfl | hne
      · rw [hself]
        exact ⟨hsome, List.getElem?_concat_length⟩
      · rw [hothers j hne] at hj ⊢
        exact (h.enabled j hj).later rfl
    · rcases eq_or_ne j i with rfl | hne
      · have hbefore : Right s (o, callback) := ⟨hsome, hqueue o hj⟩
        rw [hself]
        exact hbefore.later rfl
      · rw [hothers j hne]
        exact (h.queued j o hj).later rfl

/-- what `timer_stop` does -/
theorem timerStop_cases {s' : St Callback} {timerId : UInt32} (hstop : s.timerStop timerId = some s') :
    s' = s ∨ ∃ i : Fin 5, i.val = timerId.toNat ∧ (s.task i).enable = true ∧
      s' = s.setTask i ⟨false, false, 0xFFFFFFFF, 0xFFFFFFFF, none, (s.task i).owner⟩ := by
  unfold St.timerStop at hstop
  dsimp only at hstop
  split_ifs at hstop with hlt hoff
  · exact Or.inl (Option.some.inj hstop).symm
  · exact Or.inr ⟨⟨timerId.toNat, hlt⟩, rfl, Bool.eq_true_of_not_eq_false hoff, (Option.some.inj hstop).symm⟩

theorem stop_inv (h : Inv s) {s' : St Callback} {timerId : UInt32} (hclear : Clear s (.stop timerId))
    (hstop : s.timerStop timerId = some s') : Inv s' := by
  rcases timerStop_cases hstop with rfl | ⟨i, hid, henable, rfl⟩
  · exact h
  · refine ⟨fun j hj => ?_, fun j o hj => ?_, h.called⟩
    · rcases eq_or_ne j i with rfl | hne
      · simp [St.setTask] at hj
      · simp only [St.setTask, Function.update_of_ne hne] at hj ⊢
        exact h.enabled j hj
    · rcases eq_or_ne j i with rfl | hne
      · exact absurd hj (hclear j hid henable o)
      · simp only [St.setTask, Function.update_of_ne hne]
        exact h.queued j o hj

theorem tick_inv (h : Inv s) : Inv s.timerInterruptFunction := by
  obtain ⟨hstarts, hcalls⟩ := tick_log s
  have hright : ∀ {call}, Right s call → Right s.timerInterruptFunction call := fun hcall => ⟨hcall.1, hstarts ▸ hcall.2⟩
  refine ⟨fun i hi => ?_, fun i o hi => ?_, fun c hc => hright (h.called c (hcalls ▸ hc))⟩
  · rw [tick_task] at hi ⊢
    rw [TimerTask.tick_owner, TimerTask.tick_callback]
    exact hright (h.enabled i (TimerTask.enable_of_tick hi))
  · rw [tick_task, TimerTask.tick_callback]
    rcases mem_tick_queue.1 hi with hold | ⟨hexpires, rfl⟩
    · exact hright (h.queued i o hold)
    · exact hright (h.enabled i (Bool.and_eq_true_iff.1 hexpires).1)

theorem drain_inv (h : Inv s) : Inv s.runTasks := by
  refine ⟨h.enabled, fun i o hi => ?_, fun c hc => ?_⟩
  · cases hi
  · rcases List.mem_append.1 hc with hold | hnew
    · exact h.called c hold
    · obtain ⟨⟨i, o⟩, hmem, rfl⟩ := List.mem_map.1 hnew
      exact h.queued i o hmem

theorem step_inv (s : St Callback) (a : Act Callback) (s' : St Callback) (hstep : step s a = some s')
    (hclear : Clear s a) (h : Inv s) : Inv s' := by
  cases a with
  | start callback timeout periodic =>
    obtain rfl := Option.some.inj hstep
    exact start_inv h hclear
  | stop timerId => exact stop_inv h hclear hstep
  | tick =>
    obtain rfl := Option.some.inj hstep
    exact tick_inv h
  | drain =>
    obtain rfl := Option.some.inj hstep
    exact drain_inv h

theorem zero_inv : Inv (.zero : St Callback) := by
  refine ⟨fun i hi => ?_, fun i o hi => ?_, fun c hc => ?_⟩
  · cases hi
  · cases hi
  · cases hc

/-! ## When it is not -/

/-- owners are calls that were made -/
structure Numbered (s : St Callback) : Prop where
  enabled : ∀ i, (s.task i).enable = true → (s.task i).owner < s.starts.length
  queued : ∀ i o, (i, o) ∈ s.queue → o < s.starts.length

theorem zero_numbered : Numbered (.zero : St Callback) := by
  refine ⟨fun i hi => ?_, fun i o hi => ?_⟩
  · cases hi
  · cases hi

theorem step_numbered (s : St Callback) (a : Act Callback) (s' : St Callback) (hstep : step s a = some s')
    (h : Numbered s) : Numbered s' := by
  cases a with
  | start callback timeout periodic =>
    obtain rfl := Option.some.inj hstep
    have hlength : (s.starts ++ [callback]).length = s.starts.length + 1 := by
      rw [List.length_append, List.length_singleton]
    cases hempty : s.emptySlot with
    | none =>
      rw [timerStart_of_full hempty]
      refine ⟨fun i hi => ?_, fun i o hi => ?_⟩
      · exact (Nat.lt_succ_of_lt (h.enabled i hi)).trans_eq hlength.symm
      · exact (Nat.lt_succ_of_lt (h.queued i o hi)).trans_eq hlength.symm
    | some i =>
      rw [timerStart_of_empty hempty]
      refine ⟨fun j hj => ?_, fun j o hj => (Nat.lt_succ_of_lt (h.queued j o hj)).trans_eq hlength.symm⟩
      obtain ⟨hself, hothers⟩ := occupy_task s i callback timeout periodic
      rcases eq_or_ne j i with rfl | hne
      · rw [hself]
        exact (Nat.lt_succ_self _).trans_eq hlength.symm
      · rw [hothers j hne] at hj ⊢
        exact (Nat.lt_succ_of_lt (h.enabled j hj)).trans_eq hlength.symm
  | stop timerId =>
    rcases timerStop_cases hstep with rfl | ⟨i, -, -, rfl⟩
    · exact h
    · refine ⟨fun j hj => ?_, h.queued⟩
      rcases eq_or_ne j i with rfl | hne
      · simp [St.setTask] at hj
      · simp only [St.setTask, Function.update_of_ne hne] at hj ⊢
        exact h.enabled j hj
  | tick =>
    obtain rfl := Option.some.inj hstep
    have hstarts := (tick_log s).1
    refine ⟨fun i hi => ?_, fun i o hi => ?_⟩
    · rw [tick_task] at hi ⊢
      rw [hstarts, TimerTask.tick_owner]
      exact h.enabled i (TimerTask.enable_of_tick hi)
    · rw [hstarts]
      rcases mem_tick_queue.1 hi with hold | ⟨hexpires, rfl⟩
      · exact h.queued i o hold
      · exact h.enabled i (Bool.and_eq_true_iff.1 hexpires).1
  | drain =>
    obtain rfl := Option.some.inj hstep
    refine ⟨h.enabled, fun i o hi => ?_⟩
    cases hi

/-- an emptying calls what the slot holds -/
theorem drain_calls {o : ℕ} (hqueue : (i, o) ∈ s.queue) : (o, (s.task i).callback) ∈ s.runTasks.calls :=
  List.mem_append_right _ (List.mem_map_of_mem (f := fun e => (e.2, (s.task e.1).callback)) hqueue)

/-- an enabled slot is in the queue in the end -/
theorem expire_later (n : ℕ) (henable : (s.task i).enable = true) (hcurr : (s.task i).curr.toNat = n) :
    ∃ s', Machine.exec step s (List.replicate (n + 1) .tick) = some s' ∧ (i, (s.task i).owner) ∈ s'.queue ∧
      (s'.task i).callback = (s.task i).callback := by
  induction n generalizing s with
  | zero =>
    have hzero : (s.task i).curr = 0 := UInt32.toNat_inj.1 hcurr
    refine ⟨s.timerInterruptFunction, rfl, mem_tick_queue.2 (Or.inr ⟨?_, rfl⟩), ?_⟩
    · simp [TimerTask.expires, henable, hzero]
    · rw [tick_task, TimerTask.tick_callback]
  | succ n ih =>
    have hne : (s.task i).curr ≠ 0 := by
      intro hzero
      rw [hzero] at hcurr
      cases hcurr
    obtain ⟨htick, hcount⟩ := TimerTask.tick_counting henable hne
    rw [← tick_task] at htick hcount
    have hpred : (s.timerInterruptFunction.task i).curr.toNat = n := by omega
    obtain ⟨s', hexec, hqueue, hcallback⟩ := ih (by rw [htick]; exact henable) hpred
    refine ⟨s', ?_, ?_, ?_⟩
    · rw [List.replicate_succ, Machine.exec]
      exact hexec
    · rwa [htick] at hqueue
    · rw [hcallback, htick]

/-- a timer with a null callback expires, and null is called -/
theorem wrong_of_null (timeout : UInt32) (periodic : Bool) (hempty : s.emptySlot = some i) :
    ∃ rest s', Machine.exec step s (.start none timeout periodic :: rest) = some s' ∧
      ∃ call ∈ s'.calls, ¬Right s' call := by
  have hone : step s (.start none timeout periodic) = some (s.occupy i none timeout periodic) :=
    congrArg some (timerStart_of_empty hempty none timeout periodic)
  have hself := (occupy_task s i none timeout periodic).1
  obtain ⟨s', hexec, hqueue, hcallback⟩ := expire_later (s := s.occupy i none timeout periodic) (i := i) timeout.toNat
    (by rw [hself]) (by rw [hself])
  rw [hself] at hcallback
  refine ⟨List.replicate (timeout.toNat + 1) .tick ++ [.drain], s'.runTasks, ?_, _, drain_calls hqueue, ?_⟩
  · rw [Machine.exec, hone, Option.bind_some]
    exact Machine.exec_trans hexec rfl
  · rw [hcallback]
    simp [Right]

/-- a slot in the queue is given to another timer, and the queue is emptied -/
theorem wrong_of_reuse (h : Numbered s) (callback : Option Callback) (timeout : UInt32) (periodic : Bool)
    (hempty : s.emptySlot = some i) {o : ℕ} (hqueue : (i, o) ∈ s.queue) (hother : s.starts[o]? ≠ some callback) :
    ∃ rest s', Machine.exec step s (.start callback timeout periodic :: rest) = some s' ∧
      ∃ call ∈ s'.calls, ¬Right s' call := by
  have hone : step s (.start callback timeout periodic) = some (s.occupy i callback timeout periodic) :=
    congrArg some (timerStart_of_empty hempty callback timeout periodic)
  have hself := (occupy_task s i callback timeout periodic).1
  refine ⟨[.drain], (s.occupy i callback timeout periodic).runTasks, ?_, _, drain_calls hqueue, ?_⟩
  · rw [Machine.exec, hone, Option.bind_some]
    rfl
  · intro hright
    have hsame : (s.starts ++ [callback])[o]? = some ((s.occupy i callback timeout periodic).task i).callback := hright.2
    rw [hself, List.getElem?_append_left (h.queued i o hqueue)] at hsame
    exact hother hsame

/-- a slot in the queue is stopped, and the queue is emptied -/
theorem wrong_of_stop {timerId : UInt32} (hid : i.val = timerId.toNat) (henable : (s.task i).enable = true) {o : ℕ}
    (hqueue : (i, o) ∈ s.queue) :
    ∃ rest s', Machine.exec step s (.stop timerId :: rest) = some s' ∧ ∃ call ∈ s'.calls, ¬Right s' call := by
  have hone : step s (.stop timerId) =
      some (s.setTask i ⟨false, false, 0xFFFFFFFF, 0xFFFFFFFF, none, (s.task i).owner⟩) := by
    have hlt : timerId.toNat < 5 := hid ▸ i.isLt
    obtain rfl : i = ⟨timerId.toNat, hlt⟩ := Fin.ext hid
    rw [step, St.timerStop, dif_pos hlt]
    dsimp only
    rw [if_neg (by rw [henable]; decide)]
  refine ⟨[.drain], (s.setTask i ⟨false, false, 0xFFFFFFFF, 0xFFFFFFFF, none, (s.task i).owner⟩).runTasks, ?_, _,
    drain_calls hqueue, ?_⟩
  · rw [Machine.exec, hone, Option.bind_some]
    rfl
  · simp [Right, St.setTask]

/-- what the queue or a null callback leads to -/
theorem wrong_of_not_clear (h : Numbered s) {a : Act Callback} (hclear : ¬Clear s a) :
    ∃ rest s', Machine.exec step s (a :: rest) = some s' ∧ ∃ call ∈ s'.calls, ¬Right s' call := by
  cases a with
  | start callback timeout periodic =>
    rw [Clear] at hclear
    push Not at hclear
    obtain ⟨i, hempty, hwrong⟩ := hclear
    cases callback with
    | none => exact wrong_of_null timeout periodic hempty
    | some cb =>
      obtain ⟨o, hqueue, hother⟩ := hwrong rfl
      exact wrong_of_reuse h (some cb) timeout periodic hempty hqueue hother
  | stop timerId =>
    rw [Clear] at hclear
    push Not at hclear
    obtain ⟨i, hid, henable, o, hqueue⟩ := hclear
    exact wrong_of_stop hid henable hqueue
  | tick => exact absurd trivial hclear
  | drain => exact absurd trivial hclear

/-- **Whose callback is called.** In a run in which no slot with a queued index is stopped or given to a timer with another
callback, and no slot is given a null callback, every call of the task thread is of a callback that is not null, and that is
the one given to the `timer_start` whose timer expired. Whenever a step does one of these, the run has a continuation with a
call that is not. -/
theorem calls_match (acts : List (Act Callback)) (s : St Callback) (hrun : run acts = some s) :
    (Machine.Meets step Clear .zero acts → ∀ call ∈ s.calls, Right s call) ∧
      ∀ a, (step s a).isSome → ¬Clear s a →
        ∃ rest s', run (acts ++ a :: rest) = some s' ∧ ∃ call ∈ s'.calls, ¬Right s' call := by
  rw [run, initTimerTask_eq, Option.bind_some] at hrun
  refine ⟨fun hmeets => (Machine.exec_inv_of_meets step_inv hrun hmeets zero_inv).called, fun a _ hclear => ?_⟩
  have hnumbered : Numbered s := Machine.exec_inv step_numbered hrun zero_numbered
  obtain ⟨rest, s', hexec, hwrong⟩ := wrong_of_not_clear hnumbered hclear
  refine ⟨rest, s', ?_, hwrong⟩
  rw [run, initTimerTask_eq, Option.bind_some]
  exact Machine.exec_trans hrun hexec

/-- a timer that expires is called and then stopped -/
def inTurn : List (Act ℕ) := [.start (some 7) 0 true, .tick, .drain, .stop 0]

theorem inTurn_clear : Machine.Meets step Clear .zero inTurn := by
  refine .cons rfl ?_ (.cons rfl trivial (.cons rfl trivial (.cons rfl ?_ trivial)))
  · intro i _
    refine ⟨rfl, fun o ho => ?_⟩
    cases ho
  · -- the queue is empty
    intro i _ _ o ho
    cases ho

theorem calls_match_inTurn : ∃ s, run inTurn = some s ∧ s.calls = [(0, some 7)] ∧ ∀ call ∈ s.calls, Right s call :=
  ⟨_, rfl, rfl, (calls_match inTurn _ rfl).1 inTurn_clear⟩

/-- **A null call.** A periodic timer expires and is stopped before the task thread looks at the queue: the task thread calls
a null pointer. -/
theorem stopped_in_queue : ∃ s : St ℕ, run [.start (some 7) 0 true, .tick, .stop 0, .drain] = some s ∧
    s.calls = [(0, none)] ∧ ∃ call ∈ s.calls, ¬Right s call :=
  ⟨_, rfl, rfl, (0, none), List.mem_singleton_self _, fun h => by cases h.1⟩

/-- **Another timer's callback.** A one-shot timer expires, its slot is given to another timer, and the expiry of the first
calls the callback of the second. -/
theorem reused_in_queue : ∃ s : St ℕ, run [.start (some 7) 0 false, .tick, .start (some 8) 9 false, .drain] = some s ∧
    s.calls = [(0, some 8)] ∧ s.starts = [some 7, some 8] :=
  ⟨_, rfl, rfl, rfl⟩

/-! ## On which tick -/

/-- this tick puts the timer of `timer_start` number `o` into `Task_queue` -/
def St.puts (s : St Callback) (o : ℕ) : Bool :=
  (s.timerInterruptFunction.queue.drop s.queue.length).any fun e => e.2 == o

/-- is timer `o` put into the queue? One answer for every tick of a run -/
def expiries (o : ℕ) : St Callback → List (Act Callback) → List Bool
  | _, [] => []
  | s, .tick :: acts => s.puts o :: expiries o s.timerInterruptFunction acts
  | s, a :: acts => ((step s a).map fun s' => expiries o s' acts).getD []

def Act.isTick : Act Callback → Bool
  | .tick => true
  | _ => false

/-- the action does not stop timer `o` -/
def Keeps (o : ℕ) (s : St Callback) : Act Callback → Prop
  | .stop timerId => ∀ i : Fin 5, i.val = timerId.toNat → (s.task i).enable = true → (s.task i).owner ≠ o
  | _ => True

/-- tick `n` is one of t, 2t, ... for a periodic timer, it is tick t for a one-shot timer -/
def due (t : ℕ) (periodic : Bool) (n : ℕ) : Bool := if periodic then decide (t ∣ n) else decide (n = t)

theorem expiries_other {o : ℕ} {t : St Callback} {a : Act Callback} (ha : a.isTick = false) (hstep : step s a = some t)
    (acts : List (Act Callback)) : expiries o s (a :: acts) = expiries o t acts := by
  cases a with
  | tick => cases ha
  | start callback timeout periodic => simp [expiries, hstep]
  | stop timerId => simp [expiries, hstep]
  | drain => simp [expiries, hstep]

theorem puts_iff {o : ℕ} : s.puts o = true ↔ ∃ i, (s.task i).expires = true ∧ (s.task i).owner = o := by
  have hqueue := (foldl_tickSlot (List.nodup_finRange 5) s).2.1
  rw [St.puts, St.timerInterruptFunction, hqueue, List.drop_left, List.any_flatMap, List.any_eq_true]
  constructor
  · intro h
    obtain ⟨i, -, hi⟩ := h
    split_ifs at hi with hexpires
    · exact ⟨i, hexpires, by simpa using hi⟩
    · simp at hi
  · intro h
    obtain ⟨i, hexpires, howner⟩ := h
    refine ⟨i, List.mem_finRange i, ?_⟩
    rw [if_pos hexpires]
    simp [howner]

/-- timer `o`, started in slot `i` with timeout `T`, after `n` ticks: it counts down from `T` to 0 and from `T` again, a
one-shot timer once -/
structure Tracks (s : St Callback) (i : Fin 5) (o T : ℕ) (periodic : Bool) (n : ℕ) : Prop where
  started : o < s.starts.length
  alone : ∀ j, (s.task j).enable = true → (s.task j).owner = o → j = i
  running : periodic = true ∨ n ≤ T → (s.task i).enable = true ∧ (s.task i).owner = o ∧
    (s.task i).periodic = periodic ∧ (s.task i).reload.toNat = T ∧ (s.task i).curr.toNat = T - n % (T + 1)
  ended : periodic = false → T < n → ∀ j, (s.task j).enable = true → (s.task j).owner ≠ o

section Tracks

variable {o T n : ℕ} {periodic : Bool}

/-- the remainder of the next number -/
theorem succ_mod (n T : ℕ) : (n + 1) % (T + 1) = if n % (T + 1) = T then 0 else n % (T + 1) + 1 := by
  have hlt := Nat.mod_lt n (show T + 1 > 0 by omega)
  rw [← Nat.mod_add_mod]
  split_ifs with h
  · rw [h, Nat.mod_self]
  · exact Nat.mod_eq_of_lt (by omega)

/-- **The tick that queues the timer** is the one after the countdown has reached 0. -/
theorem Tracks.puts_eq (h : Tracks s i o T periodic n) : s.puts o = due (T + 1) periodic (n + 1) := by
  have hmod := succ_mod n T
  have hlt := Nat.mod_lt n (show T + 1 > 0 by omega)
  rw [Bool.eq_iff_iff, puts_iff]
  by_cases hrun : periodic = true ∨ n ≤ T
  · obtain ⟨henable, howner, -, -, hcurr⟩ := h.running hrun
    have hputs : (∃ j, (s.task j).expires = true ∧ (s.task j).owner = o) ↔ n % (T + 1) = T := by
      constructor
      · intro hj
        obtain ⟨j, hexpires, hj⟩ := hj
        rw [TimerTask.expires, Bool.and_eq_true, beq_iff_eq] at hexpires
        obtain rfl := h.alone j hexpires.1 hj
        rw [hexpires.2, UInt32.toNat_zero] at hcurr
        omega
      · intro hn
        have hzero : (s.task i).curr = 0 := UInt32.toNat_inj.1 (by rw [hcurr, UInt32.toNat_zero]; omega)
        exact ⟨i, by simp [TimerTask.expires, henable, hzero], howner⟩
    rw [hputs, due]
    cases periodic with
    | true =>
      rw [if_pos rfl, decide_eq_true_eq, Nat.dvd_iff_mod_eq_zero, hmod]
      split_ifs with hn <;> simp [hn]
    | false =>
      have hle : n ≤ T := by simpa using hrun
      rw [Nat.mod_eq_of_lt (by omega : n < T + 1)]
      simp
  · obtain ⟨hone, hbig⟩ := not_or.1 hrun
    obtain rfl : periodic = false := Bool.eq_false_iff.2 hone
    simp only [due, Bool.false_eq_true, if_false, decide_eq_true_eq]
    refine ⟨fun hj => ?_, fun hn => by omega⟩
    obtain ⟨j, hexpires, hj⟩ := hj
    exact absurd hj (h.ended rfl (by omega) j (Bool.and_eq_true_iff.1 hexpires).1)

theorem Tracks.tick (h : Tracks s i o T periodic n) : Tracks s.timerInterruptFunction i o T periodic (n + 1) := by
  have hmod := succ_mod n T
  have hlt := Nat.mod_lt n (show T + 1 > 0 by omega)
  have hback : ∀ j, (s.timerInterruptFunction.task j).enable = true → (s.timerInterruptFunction.task j).owner = o →
      (s.task j).enable = true ∧ (s.task j).owner = o := by
    intro j hj hown
    rw [tick_task] at hj hown
    exact ⟨TimerTask.enable_of_tick hj, by rwa [TimerTask.tick_owner] at hown⟩
  refine ⟨by rw [(tick_log s).1]; exact h.started, fun j hj hown => ?_, fun hrun => ?_, fun hone hbig j hj hown => ?_⟩
  · exact h.alone j (hback j hj hown).1 (hback j hj hown).2
  · obtain ⟨henable, howner, hper, hreload, hcurr⟩ := h.running (hrun.imp_right fun hle => by omega)
    rw [tick_task, TimerTask.tick_owner]
    by_cases hzero : (s.task i).curr = 0
    · -- the countdown is at 0, so the timer is periodic and is reloaded
      rw [hzero, UInt32.toNat_zero] at hcurr
      have hperiodic : periodic = true := by
        rcases hrun with hp | hle
        · exact hp
        · rw [Nat.mod_eq_of_lt (by omega)] at hcurr
          omega
      rw [TimerTask.tick, if_pos henable, if_pos hzero, if_neg (by rw [hper, hperiodic]; decide)]
      rw [if_pos (by omega)] at hmod
      exact ⟨henable, howner, hper, hreload, by rw [hmod]; exact hreload⟩
    · obtain ⟨htick, hcount⟩ := TimerTask.tick_counting henable hzero
      rw [if_neg (by omega)] at hmod
      rw [hmod]
      rw [htick] at hcount ⊢
      exact ⟨henable, howner, hper, hreload, by omega⟩
  · obtain ⟨henable, howner⟩ := hback j hj hown
    by_cases hn : T < n
    · exact h.ended hone hn j henable howner
    · -- this is the tick that disables the slot
      obtain rfl := h.alone j henable howner
      obtain ⟨-, -, hper, -, hcurr⟩ := h.running (Or.inr (by omega))
      rw [Nat.mod_eq_of_lt (by omega)] at hcurr
      have hzero : (s.task j).curr = 0 := UInt32.toNat_inj.1 (by rw [hcurr, UInt32.toNat_zero]; omega)
      rw [tick_task, TimerTask.tick, if_pos henable, if_pos hzero, if_pos (by rw [hper, hone])] at hj
      cases hj

/-- slots of other timers may change -/
theorem Tracks.frame {s' : St Callback} (h : Tracks s i o T periodic n) (hstarts : s.starts.length ≤ s'.starts.length)
    (hslots : ∀ j, s'.task j = s.task j ∨ ((s.task j).enable = true → (s.task j).owner ≠ o) ∧
      ((s'.task j).enable = true → (s'.task j).owner ≠ o)) : Tracks s' i o T periodic n := by
  refine ⟨h.started.trans_le hstarts, fun j hj hown => ?_, fun hrun => ?_, fun hone hbig j hj hown => ?_⟩
  · rcases hslots j with heq | ⟨-, hother⟩
    · rw [heq] at hj hown
      exact h.alone j hj hown
    · exact absurd hown (hother hj)
  · have hi := h.running hrun
    rcases hslots i with heq | ⟨hother, -⟩
    · rwa [heq]
    · exact absurd hi.2.1 (hother hi.1)
  · rcases hslots j with heq | ⟨-, hother⟩
    · rw [heq] at hj hown
      exact h.ended hone hbig j hj hown
    · exact hother hj hown

/-- the first slot that is not enabled is not enabled -/
theorem emptySlot_off (hempty : s.emptySlot = some i) : (s.task i).enable = false := by
  have := List.find?_some hempty
  simpa using this

/-- what is not a tick and does not stop the timer does not disturb it -/
theorem Tracks.other {s' : St Callback} {a : Act Callback} (h : Tracks s i o T periodic n) (hkeep : Keeps o s a)
    (htick : a.isTick = false) (hstep : step s a = some s') : Tracks s' i o T periodic n := by
  cases a with
  | start callback timeout per =>
    obtain rfl := Option.some.inj hstep
    cases hempty : s.emptySlot with
    | none =>
      rw [timerStart_of_full hempty]
      exact h.frame (by simp [St.log]) fun j => Or.inl rfl
    | some k =>
      rw [timerStart_of_empty hempty]
      obtain ⟨hself, hothers⟩ := occupy_task s k callback timeout per
      refine h.frame (by simp [St.occupy, St.setTask, St.log]) fun j => ?_
      rcases eq_or_ne j k with rfl | hne
      · right
        rw [emptySlot_off hempty, hself]
        exact ⟨fun hoff => absurd hoff (by decide), fun _ => h.started.ne'⟩
      · exact Or.inl (hothers j hne)
  | stop timerId =>
    rcases timerStop_cases hstep with rfl | ⟨k, hid, henable, rfl⟩
    · exact h
    · refine h.frame (le_refl _) fun j => ?_
      rcases eq_or_ne j k with rfl | hne
      · right
        exact ⟨fun _ => hkeep j hid henable, by simp [St.setTask]⟩
      · left
        simp [St.setTask, Function.update_of_ne hne]
  | tick => cases htick
  | drain =>
    obtain rfl := Option.some.inj hstep
    exact h.frame (le_refl _) fun j => Or.inl rfl

/-- **Every tick of a run**: timer `o` is queued on every (T + 1)st tick, counted from where the run starts. -/
theorem expiries_eq {s' : St Callback} {acts : List (Act Callback)} (h : Tracks s i o T periodic n)
    (hexec : Machine.exec step s acts = some s') (hkeep : Machine.Meets step (Keeps o) s acts) :
    expiries o s acts = (List.range (acts.countP Act.isTick)).map fun k => due (T + 1) periodic (n + k + 1) := by
  induction acts generalizing s n with
  | nil => rfl
  | cons a acts ih =>
    obtain ⟨t, hstep, hrest⟩ := Machine.exec_cons_eq_some.1 hexec
    have hkeep' := hkeep.2 t hstep
    cases ha : a.isTick with
    | true =>
      obtain rfl : a = .tick := by cases a <;> simp_all [Act.isTick]
      obtain rfl := Option.some.inj hstep
      rw [List.countP_cons_of_pos ha, List.range_succ_eq_map, List.map_cons, List.map_map]
      rw [expiries, h.puts_eq, ih h.tick hrest hkeep']
      simp [Function.comp_def, Nat.add_assoc, Nat.add_comm 1]
    | false =>
      rw [List.countP_cons_of_neg (by simp [ha]), ← ih (h.other hkeep.1 ha hstep) hrest hkeep']
      exact expiries_other ha hstep acts

end Tracks

/-- a timer that has just been started -/
theorem tracks_start (hnumbered : Numbered s) (i : Fin 5) (callback : Option Callback)
    (timeout : UInt32) (periodic : Bool) :
    Tracks (s.occupy i callback timeout periodic) i s.starts.length timeout.toNat periodic 0 := by
  obtain ⟨hself, hothers⟩ := occupy_task s i callback timeout periodic
  refine ⟨by simp [St.occupy, St.setTask, St.log], fun j hj hown => ?_, fun _ => ?_, fun _ hbig => absurd hbig (by omega)⟩
  · by_contra hne
    rw [hothers j hne] at hj hown
    exact absurd hown (hnumbered.enabled j hj).ne
  · rw [hself]
    simp

/-- a tick `n` before the two schedules part, and tick `t` -/
theorem due_agree_iff {t : ℕ} (ht : 1 ≤ t) (periodic : Bool) (m : ℕ) :
    (∀ n < m, due (t + 1) periodic (n + 1) = due t periodic (n + 1)) ↔ m < t := by
  constructor
  · intro h
    by_contra hm
    have hlast := h (t - 1) (by omega)
    rw [Nat.sub_add_cancel ht] at hlast
    have hnot : ¬ (t + 1 ∣ t) := fun hd => absurd (Nat.le_of_dvd (by omega) hd) (by omega)
    cases periodic with
    | true => simp [due, hnot] at hlast
    | false => simp [due] at hlast
  · intro hm n hn
    have hnot : ∀ k, n + 1 < k → ¬ (k ∣ n + 1) := fun k hk hd => absurd (Nat.le_of_dvd (by omega) hd) (by omega)
    cases periodic with
    | true => simp [due, hnot t (by omega), hnot (t + 1) (by omega)]
    | false =>
      simp only [due, Bool.false_eq_true, if_false, decide_eq_decide]
      omega

/-- **Timers are one tick late, every time.** A timer started with timeout T >= 1 after any run, and not stopped, is put into
`Task_queue` on the ticks T + 1, 2 (T + 1), ..., a one-shot timer on tick T + 1 only, whatever else is done in between.
The ticks T, 2T, ... (T for a one-shot timer) are what it is queued on exactly as long as fewer than T ticks have been made,
when nothing is due. -/
theorem expires_late (before : List (Act Callback)) (s : St Callback) (hrun : run before = some s)
    (callback : Option Callback) (timeout : UInt32) (periodic : Bool) (htimeout : 1 ≤ timeout.toNat) (timerId : Fin 5)
    (hslot : (s.timerStart callback timeout periodic).2 = some timerId) (acts : List (Act Callback)) (s' : St Callback)
    (hexec : Machine.exec step (s.timerStart callback timeout periodic).1 acts = some s')
    (hkeep : Machine.Meets step (Keeps s.starts.length) (s.timerStart callback timeout periodic).1 acts) :
    expiries s.starts.length (s.timerStart callback timeout periodic).1 acts =
        (List.range (acts.countP Act.isTick)).map (fun n => due (timeout.toNat + 1) periodic (n + 1)) ∧
      (expiries s.starts.length (s.timerStart callback timeout periodic).1 acts =
          (List.range (acts.countP Act.isTick)).map (fun n => due timeout.toNat periodic (n + 1)) ↔
        acts.countP Act.isTick < timeout.toNat) := by
  have hempty : s.emptySlot = some timerId := by
    unfold St.timerStart at hslot
    split at hslot
    · rename_i i hi
      exact hi.trans hslot
    · cases hslot
  rw [run, initTimerTask_eq, Option.bind_some] at hrun
  have hnumbered : Numbered s := Machine.exec_inv step_numbered hrun zero_numbered
  rw [timerStart_of_empty hempty] at hexec hkeep ⊢
  have hall := expiries_eq (tracks_start hnumbered timerId callback timeout periodic) hexec hkeep
  simp only [Nat.zero_add] at hall
  refine ⟨hall, ?_⟩
  rw [hall, List.map_inj_left, ← due_agree_iff htimeout periodic]
  simp only [List.mem_range]

/-- the first timer of `main`, every 2 sec, while a second one is started, expires and is stopped -/
def twoTimers : List (Act ℕ) := [.tick, .start (some 2) 5 true, .tick, .stop 1, .tick, .drain, .tick]

theorem twoTimers_keep : Machine.Meets step (Keeps 0) ((St.zero : St ℕ).timerStart (some 1) 2 true).1 twoTimers := by
  refine .cons rfl trivial (.cons rfl trivial (.cons rfl trivial (.cons rfl ?_ (.cons rfl trivial
    (.cons rfl trivial (.cons rfl trivial trivial))))))
  -- slot 1 is that of the second timer
  intro i hi _
  obtain rfl : i = 1 := Fin.ext hi
  decide

theorem expires_late_twoTimers :
    expiries 0 ((St.zero : St ℕ).timerStart (some 1) 2 true).1 twoTimers = [false, false, true, false] ∧
      expiries 0 ((St.zero : St ℕ).timerStart (some 1) 2 true).1 twoTimers ≠
        (List.range (twoTimers.countP Act.isTick)).map fun n => due 2 true (n + 1) := by
  obtain ⟨hlate, hiff⟩ := expires_late [] .zero rfl (some 1) 2 true (by decide) 0 rfl twoTimers _ rfl twoTimers_keep
  exact ⟨hlate, fun hsecond => absurd (hiff.1 hsecond) (by decide)⟩

/-- **One tick late.** `timer_start` with timeout 2, periodic, and three ticks: queued on the third, not on the second. -/
theorem second_tick_missed : ∃ s s' : St ℕ, run [] = some s ∧ (s.timerStart (some 1) 2 true).2 = some 0 ∧
    Machine.exec step (s.timerStart (some 1) 2 true).1 [.tick, .tick, .tick] = some s' ∧
    Machine.Meets step (Keeps 0) (s.timerStart (some 1) 2 true).1 [.tick, .tick, .tick] ∧
    expiries 0 (s.timerStart (some 1) 2 true).1 [.tick, .tick, .tick] = [false, false, true] ∧
    (List.range 3).map (fun n => due 2 true (n + 1)) = [false, true, false] :=
  ⟨_, _, rfl, rfl, rfl, .cons rfl trivial (.cons rfl trivial (.cons rfl trivial trivial)), rfl, rfl⟩

end InterviewPrep.Timer
