/-
The counting semaphore of semaphore/countingSemaphore.c, used by any number of workers: `sem_wait_custom`, critical section,
`sem_post_custom`, again and again.

A locked section is one step. A worker that finds `count` zero joins the sleepers of `cond` and releases the lock in one;
a woken one takes the lock again and starts over with the test, and a newcomer may be in front of it. The thread that
`pthread_cond_signal` wakes is part of the action; sleepers may also wake by themselves.

- `units_accounted`: in every run, `count` and the workers inside make up the initial value, so no more than that are
  inside; and while a worker sleeps, at least `count` woken ones have not looked yet, so a sleeper is never left with a
  unit that nobody is about to take.
-/
import InterviewPrep.Core.Condition
import InterviewPrep.Core.Machine

namespace InterviewPrep.Semaphore

/-! ## Model -/

structure St (ι : Type) where
  count : ℤ
  cond : Cond ι
  /-- workers in the critical section -/
  inside : Finset ι

/-- `wakes` is the thread that `pthread_cond_signal` picks -/
inductive Act (ι : Type) where
  | wait (i : ι)
  | resume (i : ι)
  | post (i : ι) (wakes : Option ι)
  | spurious (i : ι)

variable {ι : Type} [DecidableEq ι]

namespace St

/-- `sem_init_custom` -/
def init (value : ℤ) : St ι := ⟨value, Cond.empty, ∅⟩

def sleep (s : St ι) (i : ι) : St ι := { s with cond := s.cond.join i }

def enter (s : St ι) (i : ι) : St ι :=
  { count := s.count - 1, cond := s.cond.leave i, inside := insert i s.inside }

/-- `sem_wait_custom`, from the test on -/
def semWait (s : St ι) (i : ι) : St ι := if s.count = 0 then s.sleep i else s.enter i

/-- `sem_post_custom` -/
def semPost (s : St ι) (i : ι) (wakes : Option ι) : Option (St ι) :=
  (s.cond.notifyOne wakes).map fun c => { count := s.count + 1, cond := c, inside := s.inside.erase i }

def spurious (s : St ι) (i : ι) : St ι := { s with cond := s.cond.wake i }

end St

def step (s : St ι) : Act ι → Option (St ι)
  | .wait i => if i ∉ s.inside ∧ i ∉ s.cond.busy then some (s.semWait i) else none
  | .resume i => if i ∈ s.cond.woken then some (s.semWait i) else none
  | .post i wakes => if i ∈ s.inside then s.semPost i wakes else none
  | .spurious i => if i ∈ s.cond.waiting then some (s.spurious i) else none

/-! ## Units -/

structure Inv (k : ℕ) (s : St ι) : Prop where
  units : s.count + s.inside.card = k
  nonneg : 0 ≤ s.count
  apart : Disjoint s.inside s.cond.busy
  covered : s.cond.Covered s.count.toNat

variable {k : ℕ} {s s' : St ι} {i : ι}

theorem sleep_inv (h : Inv k s) (hout : i ∉ s.inside) (hzero : s.count = 0) : Inv k (s.sleep i) where
  units := h.units
  nonneg := h.nonneg
  apart := by
    show Disjoint s.inside (s.cond.join i).busy
    rw [Cond.busy_join, Finset.disjoint_insert_right]
    exact ⟨hout, h.apart⟩
  covered := by
    -- there is nothing to be had
    show Cond.Covered _ s.count.toNat
    rw [hzero]
    exact Cond.covered_zero _

theorem enter_inv (h : Inv k s) (hout : i ∉ s.inside) (hawake : i ∉ s.cond.waiting) (hsome : s.count ≠ 0) :
    Inv k (s.enter i) := by
  have hnonneg := h.nonneg
  refine ⟨?_, show 0 ≤ s.count - 1 by omega, ?_, ?_⟩
  · show s.count - 1 + ((insert i s.inside).card : ℤ) = k
    rw [Finset.card_insert_of_notMem hout, ← h.units]
    push_cast
    ring
  · show Disjoint (insert i s.inside) (s.cond.waiting ∪ s.cond.woken.erase i)
    rw [Finset.disjoint_insert_left]
    refine ⟨by simp [hawake], h.apart.mono_right ?_⟩
    exact Finset.union_subset_union (Finset.Subset.refl _) (Finset.erase_subset i _)
  · show (s.cond.leave i).Covered (s.count - 1).toNat
    have hone : s.count.toNat = (s.count - 1).toNat + 1 := by omega
    have hcovered := h.covered
    rw [hone] at hcovered
    exact hcovered.leave i

theorem semWait_inv (h : Inv k s) (hout : i ∉ s.inside) (hawake : i ∉ s.cond.waiting) : Inv k (s.semWait i) := by
  unfold St.semWait
  split_ifs with hzero
  · exact sleep_inv h hout hzero
  · exact enter_inv h hout hawake hzero

theorem spurious_inv (h : Inv k s) (hi : i ∈ s.cond.waiting) : Inv k (s.spurious i) where
  units := h.units
  nonneg := h.nonneg
  apart := by
    show Disjoint s.inside (s.cond.wake i).busy
    rw [Cond.busy_wake hi]
    exact h.apart
  covered := h.covered.wake i

theorem semPost_inv (h : Inv k s) (hi : i ∈ s.inside) {wakes : Option ι} (hpost : s.semPost i wakes = some s') :
    Inv k s' := by
  obtain ⟨c, hnotify, rfl⟩ := Option.map_eq_some_iff.1 hpost
  have hnonneg := h.nonneg
  have hbusy : c.busy = s.cond.busy := Cond.busy_notifyOne hnotify
  refine ⟨?_, show 0 ≤ s.count + 1 by omega, ?_, ?_⟩
  · show s.count + 1 + ((s.inside.erase i).card : ℤ) = k
    rw [← h.units, ← Finset.card_erase_add_one hi]
    push_cast
    ring
  · show Disjoint (s.inside.erase i) c.busy
    rw [hbusy]
    exact h.apart.mono_left (Finset.erase_subset i s.inside)
  · -- the unit comes with a signal
    show c.Covered (s.count + 1).toNat
    have hone : (s.count + 1).toNat = s.count.toNat + 1 := by omega
    rw [hone]
    exact h.covered.notifyOne hnotify

theorem step_inv (s : St ι) (a : Act ι) (s' : St ι) (hstep : step s a = some s') (h : Inv k s) : Inv k s' := by
  cases a with
  | wait i =>
    rw [step] at hstep
    split_ifs at hstep with hidle
    obtain rfl := Option.some.inj hstep
    exact semWait_inv h hidle.1 fun hwaiting => hidle.2 (Finset.mem_union_left _ hwaiting)
  | resume i =>
    rw [step] at hstep
    split_ifs at hstep with hwoken
    obtain rfl := Option.some.inj hstep
    have hout : i ∉ s.inside := Finset.disjoint_right.1 h.apart (Finset.mem_union_right _ hwoken)
    exact semWait_inv h hout (Finset.disjoint_right.1 s.cond.disjoint hwoken)
  | post i wakes =>
    rw [step] at hstep
    split_ifs at hstep with hinside
    exact semPost_inv h hinside hstep
  | spurious i =>
    rw [step] at hstep
    split_ifs at hstep with hwaiting
    obtain rfl := Option.some.inj hstep
    exact spurious_inv h hwaiting

theorem init_inv (k : ℕ) : Inv k (St.init k : St ι) where
  units := by simp [St.init]
  nonneg := Int.natCast_nonneg k
  apart := Finset.disjoint_empty_left _
  covered := Cond.covered_of_empty rfl _

/-- **Units.** In every run from the initial value `k`: `count` plus the number of workers inside is `k`, and `count` is not
negative, so at most `k` workers are inside; and if a worker sleeps, at least `count` woken workers have not tested again. -/
theorem units_accounted (k : ℕ) (acts : List (Act ι)) (s : St ι) (hrun : Machine.exec step (St.init k) acts = some s) :
    s.count + s.inside.card = k ∧ 0 ≤ s.count ∧ s.inside.card ≤ k ∧
      (s.cond.waiting.Nonempty → s.count ≤ s.cond.woken.card) := by
  have h : Inv k s := Machine.exec_inv step_inv hrun (init_inv k)
  have hunits := h.units
  have hnonneg := h.nonneg
  refine ⟨hunits, hnonneg, by omega, fun hsleeps => ?_⟩
  have hcovered := h.covered hsleeps
  omega

/-- worker 1 sleeps, worker 0 signals it, worker 2 takes the unit first, worker 1 sleeps again -/
def overtaking : List (Act ℕ) := [.wait 0, .wait 1, .post 0 (some 1), .wait 2, .resume 1]

theorem units_accounted_overtaking : ∃ s, Machine.exec step (St.init (1 : ℕ)) overtaking = some s ∧
    s.inside = {2} ∧ s.cond.waiting = {1} ∧ s.count ≤ s.cond.woken.card :=
  ⟨_, rfl, rfl, rfl, (units_accounted 1 overtaking _ rfl).2.2.2 ⟨1, by decide⟩⟩

end InterviewPrep.Semaphore
