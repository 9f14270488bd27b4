/-
Shutdown of the blocking ring buffer in C (circularQueue/circularBufferStaticProdCons.c).

`cb_push` and `cb_pop` lock, test the loop condition, and in a later step enter `pthread_cond_wait`, which releases the lock
and joins the sleepers in one. `handle_sigint` takes no lock: it clears `keep_running`, broadcasts `not_full`, broadcasts
`not_empty`, each at any time. (The C++ version of this buffer does all of this in `stop` with the lock held.) The handler
may run more than once. `g_cb` is set before there are threads.

A thread that has tested and not yet joined is in no wait set, so a broadcast in this window does not reach it; it joins
afterwards, and nobody is left to wake it.

- `shutdown_wakes`: if no thread is in its window when its condition is broadcast, then in every state of the run in which
  the handler has completed nobody sleeps; and whenever a thread is in its window at the broadcast, the run can go on to a
  state in which the handler has completed and that thread sleeps;
- `missed_broadcast` is such a run.
-/
import InterviewPrep.Core.Condition
import InterviewPrep.Core.Machine

namespace InterviewPrep.CircularQueue.ProdConsC

/-! ## Model -/

inductive Call where
  | push (value : ℤ)
  | pop
  deriving DecidableEq

/-- where a thread in a call is: tested and about to wait, asleep (or woken), tested and about to go on -/
inductive Stage where
  | willWait
  | asleep
  | willGo
  deriving DecidableEq

/-- where `handle_sigint` is: not running, `keep_running` cleared, `not_full` broadcast -/
inductive Handler where
  | off
  | flagged
  | halfway
  deriving DecidableEq

structure St (ι : Type) where
  buffer : ℕ → ℤ
  capacity : ℕ
  head : ℕ
  tail : ℕ
  size : ℕ
  keepRunning : Bool
  /-- holder of `lock` -/
  owner : Option ι
  notFull : Cond ι
  notEmpty : Cond ι
  pc : ι → Option (Call × Stage)
  handler : Handler
  /-- `handle_sigint` has completed -/
  handled : Bool

/-- `wakes` is the thread that `pthread_cond_signal` picks -/
inductive Act (ι : Type) where
  | call (i : ι) (c : Call)
  | resume (i : ι)
  | enterWait (i : ι)
  | finish (i : ι) (wakes : Option ι)
  | spurious (i : ι)
  | sigint
  | broadcastFull
  | broadcastEmpty
  deriving DecidableEq

variable {ι : Type} [DecidableEq ι]

namespace St

/-- `cb_init` -/
def init (capacity : ℕ) : St ι :=
  ⟨fun _ => 0, capacity, 0, 0, 0, true, none, Cond.empty, Cond.empty, fun _ => none, .off, false⟩

def cond (s : St ι) : Call → Cond ι
  | .push _ => s.notFull
  | .pop => s.notEmpty

def setNotFull (s : St ι) (cond : Cond ι) : St ι := { s with notFull := cond }

def setNotEmpty (s : St ι) (cond : Cond ι) : St ι := { s with notEmpty := cond }

def setCond (s : St ι) (cond : Cond ι) : Call → St ι
  | .push _ => s.setNotFull cond
  | .pop => s.setNotEmpty cond

def setPc (s : St ι) (i : ι) (pc : Option (Call × Stage)) : St ι := { s with pc := Function.update s.pc i pc }

def setOwner (s : St ι) (owner : Option ι) : St ι := { s with owner := owner }

/-- `cb_full`, `cb_empty` -/
def blocked (s : St ι) : Call → Bool
  | .push _ => s.size = s.capacity
  | .pop => s.size = 0

/-- take the lock and test the loop condition -/
def test (s : St ι) (i : ι) (c : Call) : St ι :=
  (s.setOwner (some i)).setPc i (some (c, if s.blocked c && s.keepRunning then .willWait else .willGo))

/-- `pthread_cond_wait`: release the lock and join the sleepers -/
def sleep (s : St ι) (i : ι) (c : Call) : St ι :=
  ((s.setCond ((s.cond c).join i) c).setOwner none).setPc i (some (c, .asleep))

def write (s : St ι) (v : ℤ) : St ι :=
  { s with
    buffer := Function.update s.buffer s.head v
    head := (s.head + 1) % s.capacity
    size := s.size + 1 }

def advance (s : St ι) : St ι := { s with tail := (s.tail + 1) % s.capacity, size := s.size - 1 }

/-- return and unlock -/
def leave (s : St ι) (i : ι) : St ι := (s.setOwner none).setPc i none

/-- the rest of the call, after the loop -/
def finish (s : St ι) (i : ι) (wakes : Option ι) : Call → Option (St ι)
  | .push v =>
    if s.keepRunning = false then some (s.leave i)
    else (s.notEmpty.notifyOne wakes).map fun c => ((s.write v).setNotEmpty c).leave i
  | .pop =>
    if s.size = 0 then some (s.leave i)
    else (s.notFull.notifyOne wakes).map fun c => (s.advance.setNotFull c).leave i

def sigint (s : St ι) : St ι := { s with keepRunning := false, handler := .flagged }

def broadcastFull (s : St ι) : St ι := { s with notFull := s.notFull.notifyAll, handler := .halfway }

def broadcastEmpty (s : St ι) : St ι := { s with notEmpty := s.notEmpty.notifyAll, handler := .off, handled := true }

end St

def step (s : St ι) : Act ι → Option (St ι)
  | .call i c => if s.pc i = none ∧ s.owner = none then some (s.test i c) else none
  | .resume i =>
    match s.pc i with
    | some (c, .asleep) =>
      if i ∈ (s.cond c).woken ∧ s.owner = none then some ((s.setCond ((s.cond c).leave i) c).test i c) else none
    | _ => none
  | .enterWait i =>
    match s.pc i with
    | some (c, .willWait) => some (s.sleep i c)
    | _ => none
  | .finish i wakes =>
    match s.pc i with
    | some (c, .willGo) => s.finish i wakes c
    | _ => none
  | .spurious i =>
    match s.pc i with
    | some (c, .asleep) => if i ∈ (s.cond c).waiting then some (s.setCond ((s.cond c).wake i) c) else none
    | _ => none
  | .sigint => if s.handler = .off then some s.sigint else none
  | .broadcastFull => if s.handler = .flagged then some s.broadcastFull else none
  | .broadcastEmpty => if s.handler = .halfway then some s.broadcastEmpty else none

/-- the handler has completed and a thread sleeps -/
def Stuck (s : St ι) : Prop := s.handled = true ∧ (s.notFull.waiting.Nonempty ∨ s.notEmpty.waiting.Nonempty)

/-- no thread is between its test and its wait on the condition that is broadcast -/
def Clear (s : St ι) : Act ι → Prop
  | .broadcastFull => ∀ i v, s.pc i ≠ some (.push v, .willWait)
  | .broadcastEmpty => ∀ i, s.pc i ≠ some (.pop, .willWait)
  | _ => True

/-! ## While the window is respected -/

/-- what has been broadcast has nobody asleep or on the way to sleep -/
structure Quiet (s : St ι) : Prop where
  stopped : s.handler ≠ .off ∨ s.handled = true → s.keepRunning = false
  full : s.handler = .halfway ∨ s.handled = true →
    s.notFull.waiting = ∅ ∧ ∀ i v, s.pc i ≠ some (.push v, .willWait)
  empty : s.handled = true → s.notEmpty.waiting = ∅ ∧ ∀ i, s.pc i ≠ some (.pop, .willWait)

variable {s s' : St ι} {i : ι} {c : Call}

omit [DecidableEq ι] in
theorem quiet_of_off (hoff : s.handler = .off) (hhandled : s.handled = false) : Quiet s := by
  refine ⟨?_, ?_, ?_⟩ <;> simp [hoff, hhandled]

omit [DecidableEq ι] in
theorem Quiet.off (h : Quiet s) (hkeep : s.keepRunning = true) : s.handler = .off ∧ s.handled = false := by
  have hnot : ¬(s.handler ≠ .off ∨ s.handled = true) := by
    intro hany
    exact absurd (hkeep.symm.trans (h.stopped hany)) (by decide)
  push Not at hnot
  exact ⟨hnot.1, Bool.eq_false_of_not_eq_true hnot.2⟩

omit [DecidableEq ι] in
/-- a step that puts nobody to sleep or on the way -/
theorem Quiet.mono (h : Quiet s) (hkeep : s'.keepRunning = s.keepRunning) (hhandler : s'.handler = s.handler)
    (hhandled : s'.handled = s.handled) (hfull : s'.notFull.waiting ⊆ s.notFull.waiting)
    (hempty : s'.notEmpty.waiting ⊆ s.notEmpty.waiting)
    (hpc : ∀ i c, s'.pc i = some (c, .willWait) → s.pc i = some (c, .willWait)) : Quiet s' := by
  refine ⟨?_, ?_, ?_⟩
  · rw [hkeep, hhandler, hhandled]
    exact h.stopped
  · rw [hhandler, hhandled]
    intro hdone
    obtain ⟨hwaiting, hway⟩ := h.full hdone
    exact ⟨Finset.subset_empty.1 (hwaiting ▸ hfull), fun i v hv => hway i v (hpc i _ hv)⟩
  · rw [hhandled]
    intro hdone
    obtain ⟨hwaiting, hway⟩ := h.empty hdone
    exact ⟨Finset.subset_empty.1 (hwaiting ▸ hempty), fun i hv => hway i (hpc i _ hv)⟩

/-- a place other than the window adds nobody to it -/
theorem window_setPc {pc : Option (Call × Stage)} (hpc : ∀ c, pc ≠ some (c, .willWait)) (j : ι) (c : Call)
    (hj : (s.setPc i pc).pc j = some (c, .willWait)) : s.pc j = some (c, .willWait) := by
  rcases eq_or_ne j i with rfl | hne
  · simp only [St.setPc, Function.update_self] at hj
    exact absurd hj (hpc c)
  · simpa [St.setPc, hne] using hj

theorem test_quiet (h : Quiet s) (i : ι) (c : Call) : Quiet (s.test i c) := by
  cases hgo : s.blocked c && s.keepRunning with
  | true =>
    -- only while running does a test lead to the window
    obtain ⟨hoff, hhandled⟩ := h.off (Bool.and_eq_true_iff.1 hgo).2
    exact quiet_of_off hoff hhandled
  | false =>
    rw [St.test, hgo]
    refine h.mono rfl rfl rfl (Finset.Subset.refl _) (Finset.Subset.refl _) ?_
    exact window_setPc (by simp)

omit [DecidableEq ι] in
theorem setCond_quiet (h : Quiet s) {cond : Cond ι} (hsub : cond.waiting ⊆ (s.cond c).waiting) :
    Quiet (s.setCond cond c) := by
  cases c with
  | push v => exact h.mono rfl rfl rfl hsub (Finset.Subset.refl _) fun _ _ hj => hj
  | pop => exact h.mono rfl rfl rfl (Finset.Subset.refl _) hsub fun _ _ hj => hj

theorem leave_quiet (h : Quiet s) (i : ι) : Quiet (s.leave i) :=
  h.mono rfl rfl rfl (Finset.Subset.refl _) (Finset.Subset.refl _) (window_setPc (by simp))

theorem finish_quiet (h : Quiet s) {wakes : Option ι} (hfinish : s.finish i wakes c = some s') : Quiet s' := by
  cases c with
  | push v =>
    rw [St.finish] at hfinish
    split_ifs at hfinish
    · obtain rfl := Option.some.inj hfinish
      exact leave_quiet h i
    · obtain ⟨cond, hnotify, rfl⟩ := Option.map_eq_some_iff.1 hfinish
      apply leave_quiet
      exact h.mono rfl rfl rfl (Finset.Subset.refl _) (Cond.waiting_notifyOne hnotify) fun _ _ hj => hj
  | pop =>
    rw [St.finish] at hfinish
    split_ifs at hfinish
    · obtain rfl := Option.some.inj hfinish
      exact leave_quiet h i
    · obtain ⟨cond, hnotify, rfl⟩ := Option.map_eq_some_iff.1 hfinish
      apply leave_quiet
      exact h.mono rfl rfl rfl (Cond.waiting_notifyOne hnotify) (Finset.Subset.refl _) fun _ _ hj => hj

/-- whoever falls asleep was in the window, so its condition has not been broadcast -/
theorem sleep_quiet (h : Quiet s) (hpc : s.pc i = some (c, .willWait)) : Quiet (s.sleep i c) := by
  cases c with
  | push v =>
    refine ⟨h.stopped, fun hdone => absurd hpc ((h.full hdone).2 i v), fun hdone => ?_⟩
    exact absurd hpc ((h.full (Or.inr hdone)).2 i v)
  | pop =>
    refine ⟨h.stopped, fun hdone => ?_, fun hdone => absurd hpc ((h.empty hdone).2 i)⟩
    obtain ⟨hwaiting, hway⟩ := h.full hdone
    exact ⟨hwaiting, fun j v hj => hway j v (window_setPc (by simp) j _ hj)⟩

theorem step_quiet (s : St ι) (a : Act ι) (s' : St ι) (hstep : step s a = some s') (hclear : Clear s a) (h : Quiet s) :
    Quiet s' := by
  cases a with
  | call i c =>
    rw [step] at hstep
    split_ifs at hstep
    obtain rfl := Option.some.inj hstep
    exact test_quiet h i c
  | resume i =>
    rw [step] at hstep
    split at hstep
    · rename_i c hpc
      split_ifs at hstep
      obtain rfl := Option.some.inj hstep
      have hleave : ((s.cond c).leave i).waiting ⊆ (s.cond c).waiting := Finset.Subset.refl _
      exact test_quiet (setCond_quiet h hleave) i c
    · cases hstep
  | enterWait i =>
    rw [step] at hstep
    split at hstep
    · rename_i c hpc
      obtain rfl := Option.some.inj hstep
      exact sleep_quiet h hpc
    · cases hstep
  | finish i wakes =>
    rw [step] at hstep
    split at hstep
    · exact finish_quiet h hstep
    · cases hstep
  | spurious i =>
    rw [step] at hstep
    split at hstep
    · split_ifs at hstep
      obtain rfl := Option.some.inj hstep
      exact setCond_quiet h (Finset.erase_subset _ _)
    · cases hstep
  | sigint =>
    rw [step] at hstep
    split_ifs at hstep
    obtain rfl := Option.some.inj hstep
    refine ⟨fun _ => rfl, fun hdone => h.full ?_, h.empty⟩
    rcases hdone with hhalf | hdone
    · cases hhalf
    · exact Or.inr hdone
  | broadcastFull =>
    rw [step] at hstep
    split_ifs at hstep with hflagged
    obtain rfl := Option.some.inj hstep
    refine ⟨fun _ => h.stopped ?_, fun _ => ⟨rfl, hclear⟩, h.empty⟩
    left
    rw [hflagged]
    decide
  | broadcastEmpty =>
    rw [step] at hstep
    split_ifs at hstep with hhalf
    obtain rfl := Option.some.inj hstep
    refine ⟨fun _ => h.stopped ?_, fun _ => h.full (Or.inl hhalf), fun _ => ⟨rfl, hclear⟩⟩
    left
    rw [hhalf]
    decide

/-! ## When it is not -/

theorem step_enterWait (hpc : s.pc i = some (c, .willWait)) : step s (.enterWait i) = some (s.sleep i c) := by
  rw [step, hpc]

/-- a broadcast that misses a thread in its window can be followed by steps that leave the thread asleep for good -/
theorem stuck_of_missed {a : Act ι} (henabled : (step s a).isSome) (hmissed : ¬Clear s a) :
    ∃ acts s', Machine.exec step s (a :: acts) = some s' ∧ Stuck s' := by
  cases a with
  | broadcastFull =>
    rw [Clear] at hmissed
    push Not at hmissed
    obtain ⟨i, v, hpc⟩ := hmissed
    have hflagged : s.handler = .flagged := by
      by_contra hno
      simp [step, hno] at henabled
    refine ⟨[.enterWait i, .broadcastEmpty], (s.broadcastFull.sleep i (.push v)).broadcastEmpty, ?_, rfl,
      Or.inl ⟨i, Finset.mem_insert_self i _⟩⟩
    have hone : step s .broadcastFull = some s.broadcastFull := if_pos hflagged
    have htwo : step s.broadcastFull (.enterWait i) = some (s.broadcastFull.sleep i (.push v)) := step_enterWait hpc
    rw [Machine.exec, hone, Option.bind_some, Machine.exec, htwo, Option.bind_some]
    rfl
  | broadcastEmpty =>
    rw [Clear] at hmissed
    push Not at hmissed
    obtain ⟨i, hpc⟩ := hmissed
    have hhalf : s.handler = .halfway := by
      by_contra hno
      simp [step, hno] at henabled
    refine ⟨[.enterWait i], s.broadcastEmpty.sleep i .pop, ?_, rfl, Or.inr ⟨i, Finset.mem_insert_self i _⟩⟩
    have hone : step s .broadcastEmpty = some s.broadcastEmpty := if_pos hhalf
    have htwo : step s.broadcastEmpty (.enterWait i) = some (s.broadcastEmpty.sleep i .pop) := step_enterWait hpc
    rw [Machine.exec, hone, Option.bind_some, Machine.exec, htwo, Option.bind_some]
    rfl
  | _ => exact absurd trivial hmissed

/-- **Shutdown.** In a run in which no thread is between its test and its wait when its condition is broadcast, nobody
sleeps once `handle_sigint` has completed. Whenever a broadcast finds such a thread, the run has a continuation in which the
handler completes and the thread sleeps. -/
theorem shutdown_wakes (cap : ℕ) (acts : List (Act ι)) (s : St ι)
    (hrun : Machine.exec step (St.init cap) acts = some s) :
    (Machine.Meets step Clear (St.init cap) acts → ¬Stuck s) ∧
      ∀ a, (step s a).isSome → ¬Clear s a →
        ∃ rest s', Machine.exec step (St.init cap) (acts ++ a :: rest) = some s' ∧ Stuck s' := by
  constructor
  · intro hmeets ⟨hhandled, hsleeps⟩
    have hquiet : Quiet s := Machine.exec_inv_of_meets step_quiet hrun hmeets (quiet_of_off rfl rfl)
    rcases hsleeps with hfull | hempty
    · rw [(hquiet.full (Or.inr hhandled)).1] at hfull
      exact absurd hfull Finset.not_nonempty_empty
    · rw [(hquiet.empty hhandled).1] at hempty
      exact absurd hempty Finset.not_nonempty_empty
  · intro a henabled hmissed
    obtain ⟨rest, s', hexec, hstuck⟩ := stuck_of_missed henabled hmissed
    exact ⟨rest, s', Machine.exec_trans hrun hexec, hstuck⟩

/-- a consumer that sleeps before the signal -/
def sleeper : List (Act ℕ) := [.call 0 .pop, .enterWait 0, .sigint, .broadcastFull, .broadcastEmpty]

theorem sleeper_clear : Machine.Meets step Clear (St.init 5) sleeper := by
  -- while the handler runs, thread 0 sleeps and there is no other
  have hpc : ∀ i, (((St.init 5).test 0 .pop).sleep 0 .pop : St ℕ).pc i = none ∨
      (((St.init 5).test 0 .pop).sleep 0 .pop : St ℕ).pc i = some (.pop, .asleep) := by
    intro i
    rcases eq_or_ne i 0 with rfl | hne
    · exact Or.inr rfl
    · left
      simp [St.sleep, St.setPc, St.setOwner, St.setCond, St.setNotEmpty, St.test, St.init, hne]
  refine .cons rfl trivial (.cons rfl trivial (.cons rfl trivial (.cons rfl ?_ (.cons rfl ?_ trivial))))
  · intro i v hi
    rcases hpc i with hnone | hasleep
    · cases hnone.symm.trans hi
    · cases hasleep.symm.trans hi
  · intro i hi
    rcases hpc i with hnone | hasleep
    · cases hnone.symm.trans hi
    · cases hasleep.symm.trans hi

theorem shutdown_wakes_sleeper : ∃ s, Machine.exec step (St.init 5) sleeper = some s ∧ ¬Stuck s :=
  ⟨_, rfl, (shutdown_wakes 5 sleeper _ rfl).1 sleeper_clear⟩

/-- **A missed broadcast.** A consumer finds the buffer empty; the handler runs from start to end; the consumer goes to
sleep. The handler has completed and the consumer was not woken. -/
theorem missed_broadcast :
    ∃ s, Machine.exec step (St.init 5 : St ℕ) [.call 0 .pop, .sigint, .broadcastFull, .broadcastEmpty, .enterWait 0] =
      some s ∧ Stuck s :=
  ⟨_, rfl, rfl, Or.inr ⟨0, Finset.mem_insert_self 0 _⟩⟩

end InterviewPrep.CircularQueue.ProdConsC
