/-
pureStorage/threadCallbackEventSync.cpp: any number of users call `reg_cb`, before, during and after the event that
`event_handler` stands for.

`reg_cb` waits under `event_mutex` until `event_complete`; `event_handler` sets it under the mutex, and notifies all after the
unlock, as a step of its own. A waiting user may wake by itself.

`callbacks_run`: no callback is executed before the event is complete; every run is finite up to spurious wakeups, and where it
stops the handler has ended and every user has executed its callback, exactly once.
-/
import InterviewPrep.Core.Condition
import InterviewPrep.Core.Machine
import InterviewPrep.Core.Threads

namespace InterviewPrep.Concurrency.EventLatch

/-! ## Model -/

inductive User where
  | start
  | waiting
  | executed
  deriving DecidableEq

inductive Handler where
  | start
  /-- `event_complete` is set, and the mutex released -/
  | unlocked
  | done
  deriving DecidableEq

structure St (ι : Type) where
  event_complete : Bool
  cv : Cond ι
  user : ι → User
  handler : Handler
  /-- whose callback has been executed, in order -/
  log : List ι

inductive Act (ι : Type) where
  | call (i : ι)
  | resume (i : ι)
  | spurious (i : ι)
  | complete
  | notifyAll
  deriving DecidableEq

variable {ι : Type} [DecidableEq ι]

namespace St

def init : St ι := ⟨false, Cond.empty, fun _ => .start, .start, []⟩

/-- `cv_.wait` from the test of the predicate on, and the callback -/
def wait (s : St ι) (i : ι) : St ι :=
  if s.event_complete then
    { s with cv := s.cv.leave i, user := Function.update s.user i .executed, log := s.log ++ [i] }
  else { s with cv := s.cv.join i, user := Function.update s.user i .waiting }

end St

def step (s : St ι) : Act ι → Option (St ι)
  | .call i => if s.user i = .start then some (s.wait i) else none
  | .resume i => if i ∈ s.cv.woken then some (s.wait i) else none
  | .spurious i => if i ∈ s.cv.waiting then some { s with cv := s.cv.wake i } else none
  | .complete => if s.handler = .start then some { s with event_complete := true, handler := .unlocked } else none
  | .notifyAll => if s.handler = .unlocked then some { s with cv := s.cv.notifyAll, handler := .done } else none

/-! ## Invariant -/

structure Inv (s : St ι) : Prop where
  waiting : ∀ i, s.user i = .waiting ↔ i ∈ s.cv.busy
  complete : s.event_complete = true ↔ s.handler ≠ .start
  executed : ∀ i, s.user i = .executed ↔ i ∈ s.log
  once : s.log.Nodup
  after : s.log ≠ [] → s.event_complete = true
  nobody : s.handler = .done → s.cv.waiting = ∅

variable {s s' : St ι} {a : Act ι} {i : ι}

theorem init_inv : Inv (St.init : St ι) where
  waiting i := by simp [St.init, Cond.busy, Cond.empty]
  complete := by simp [St.init]
  executed i := by simp [St.init]
  once := List.nodup_nil
  after h := absurd rfl h
  nobody h := by cases h

/-- a user before the mutex, or woken -/
def St.inside (s : St ι) (i : ι) : Prop := s.user i = .start ∨ i ∈ s.cv.woken

theorem wait_inv (hs : Inv s) (hi : s.inside i) : Inv (s.wait i) := by
  have hnot : i ∉ s.cv.waiting := by
    rcases hi with hi | hi
    · intro hmem
      have hwaiting := (hs.waiting i).2 (Cond.mem_busy.2 (Or.inl hmem))
      rw [hi] at hwaiting
      cases hwaiting
    · exact fun hmem => Finset.disjoint_left.1 s.cv.disjoint hmem hi
  have hlog : i ∉ s.log := by
    rw [← hs.executed i]
    rcases hi with hi | hi
    · rw [hi]
      simp
    · rw [(hs.waiting i).2 (Cond.mem_busy.2 (Or.inr hi))]
      simp
  unfold St.wait
  split_ifs with hcomplete
  · refine { hs with waiting := fun j => ?_, executed := fun j => ?_, once := ?_, after := fun _ => hcomplete }
    · change Function.update s.user i .executed j = .waiting ↔ j ∈ (s.cv.leave i).busy
      rw [Cond.mem_busy_leave]
      rcases eq_or_ne j i with rfl | hne
      · rw [Function.update_self]
        exact iff_of_false (by simp) (by simp [hnot])
      · rw [Function.update_of_ne hne, hs.waiting j, Cond.mem_busy]
        simp [hne]
    · change Function.update s.user i .executed j = .executed ↔ j ∈ s.log ++ [i]
      rw [List.mem_append, List.mem_singleton]
      rcases eq_or_ne j i with rfl | hne
      · rw [Function.update_self]
        exact iff_of_true rfl (Or.inr rfl)
      · rw [Function.update_of_ne hne, hs.executed j, or_iff_left hne]
    · refine List.nodup_append.2 ⟨hs.once, List.nodup_singleton i, fun j hj k hk => ?_⟩
      rintro rfl
      exact hlog (by rwa [List.mem_singleton.1 hk] at hj)
  · have hstart : s.handler = .start := by
      by_contra hne
      exact hcomplete (hs.complete.2 hne)
    refine { hs with waiting := fun j => ?_, executed := fun j => ?_, nobody := fun hd => ?_ }
    · change Function.update s.user i .waiting j = .waiting ↔ j ∈ (s.cv.join i).busy
      rw [Cond.busy_join, Finset.mem_insert]
      rcases eq_or_ne j i with rfl | hne
      · rw [Function.update_self]
        exact iff_of_true rfl (Or.inl rfl)
      · rw [Function.update_of_ne hne, hs.waiting j, or_iff_right hne]
    · change Function.update s.user i .waiting j = .executed ↔ j ∈ s.log
      rcases eq_or_ne j i with rfl | hne
      · rw [Function.update_self]
        exact iff_of_false (by simp) hlog
      · rw [Function.update_of_ne hne, hs.executed j]
    · exact absurd (hstart.symm.trans hd) (by simp)

theorem step_inv (h : step s a = some s') (hs : Inv s) : Inv s' := by
  cases a with
  | call i =>
    obtain ⟨hi, heq⟩ := Option.ite_none_right_eq_some.1 h
    exact Option.some.inj heq ▸ wait_inv hs (Or.inl hi)
  | resume i =>
    obtain ⟨hi, heq⟩ := Option.ite_none_right_eq_some.1 h
    exact Option.some.inj heq ▸ wait_inv hs (Or.inr hi)
  | spurious i =>
    obtain ⟨hi, heq⟩ := Option.ite_none_right_eq_some.1 h
    obtain rfl := Option.some.inj heq
    refine { hs with waiting := fun j => ?_, nobody := fun hd => ?_ }
    · change s.user j = .waiting ↔ j ∈ (s.cv.wake i).busy
      rw [Cond.busy_wake hi]
      exact hs.waiting j
    · rw [hs.nobody hd] at hi
      exact absurd hi (Finset.notMem_empty i)
  | complete =>
    obtain ⟨hd, heq⟩ := Option.ite_none_right_eq_some.1 h
    obtain rfl := Option.some.inj heq
    exact { hs with complete := iff_of_true rfl (by simp), after := fun _ => rfl, nobody := fun hd' => (by cases hd') }
  | notifyAll =>
    obtain ⟨hd, heq⟩ := Option.ite_none_right_eq_some.1 h
    obtain rfl := Option.some.inj heq
    refine { hs with waiting := fun j => ?_, complete := ?_, nobody := fun _ => rfl }
    · change s.user j = .waiting ↔ j ∈ s.cv.notifyAll.busy
      rw [Cond.busy_notifyAll]
      exact hs.waiting j
    · exact iff_of_true (hs.complete.2 (by rw [hd]; simp)) (by simp)

/-! ## Where runs stop -/

section Stops

variable [Fintype ι]

def User.rank : User → ℕ
  | .start => 1
  | _ => 0

def Handler.rank (n : ℕ) : Handler → ℕ
  | .start => n + 2
  | .unlocked => n + 1
  | .done => 0

/-- a bound on the steps to come -/
def potential (s : St ι) : ℕ := s.cv.woken.card + ∑ i, (s.user i).rank + s.handler.rank (Fintype.card ι)

def Act.extra : Act ι → ℕ
  | .spurious _ => 2
  | _ => 0

theorem wait_potential (hi : s.inside i) : potential (s.wait i) + 1 ≤ potential s := by
  have hwoken : (s.cv.woken.erase i).card + (s.user i).rank + 1 ≤ s.cv.woken.card + 2 * (s.user i).rank := by
    rcases hi with hi | hi
    · have hrank : (s.user i).rank = 1 := by rw [hi]; rfl
      have hle : (s.cv.woken.erase i).card ≤ s.cv.woken.card := Finset.card_erase_le
      omega
    · have hcard : (s.cv.woken.erase i).card + 1 = s.cv.woken.card := Finset.card_erase_add_one hi
      omega
  have hsum : ∀ x : User, x.rank = 0 → ∑ j, (Function.update s.user i x j).rank + (s.user i).rank = ∑ j, (s.user j).rank := by
    intro x hx
    have hsum := sum_update User.rank s.user i x
    rwa [hx, Nat.add_zero] at hsum
  unfold St.wait
  split_ifs with hcomplete
  · have hexecuted := hsum .executed rfl
    simp only [potential, Cond.leave]
    omega
  · have hwaiting := hsum .waiting rfl
    simp only [potential, Cond.join]
    omega

theorem step_potential (h : step s a = some s') (hs : Inv s) : Inv s' ∧ potential s' + 1 ≤ potential s + a.extra := by
  refine ⟨step_inv h hs, ?_⟩
  cases a with
  | call i =>
    obtain ⟨hi, heq⟩ := Option.ite_none_right_eq_some.1 h
    exact Option.some.inj heq ▸ wait_potential (Or.inl hi)
  | resume i =>
    obtain ⟨hi, heq⟩ := Option.ite_none_right_eq_some.1 h
    exact Option.some.inj heq ▸ wait_potential (Or.inr hi)
  | spurious i =>
    obtain ⟨hi, heq⟩ := Option.ite_none_right_eq_some.1 h
    obtain rfl := Option.some.inj heq
    have hcard : (insert i s.cv.woken).card ≤ s.cv.woken.card + 1 := Finset.card_insert_le _ _
    simp only [potential, Cond.wake, Act.extra]
    omega
  | complete =>
    obtain ⟨hd, heq⟩ := Option.ite_none_right_eq_some.1 h
    obtain rfl := Option.some.inj heq
    simp only [potential, hd, Handler.rank, Act.extra]
    omega
  | notifyAll =>
    obtain ⟨hd, heq⟩ := Option.ite_none_right_eq_some.1 h
    obtain rfl := Option.some.inj heq
    have hcard : (s.cv.waiting ∪ s.cv.woken).card ≤ Fintype.card ι := Finset.card_le_univ _
    simp only [potential, hd, Handler.rank, Cond.notifyAll, Act.extra]
    omega

/-- **Every callback runs, after the event.** For any number of users and every interleaving: callbacks are executed only when the
event is complete, each at most once; a run is no longer than twice the number of users and two steps more, spurious wakeups
counted twice; where it stops, but for spurious wakeups, the handler has ended and every user has executed its callback. -/
theorem callbacks_run {acts : List (Act ι)} (hrun : Machine.exec step St.init acts = some s) :
    (s.log ≠ [] → s.event_complete = true) ∧ s.log.Nodup ∧
      acts.length ≤ 2 * Fintype.card ι + 2 + (acts.map Act.extra).sum ∧
      ((∀ a, (∀ i, a ≠ .spurious i) → step s a = none) → s.handler = .done ∧ ∀ i, i ∈ s.log) := by
  have hs : Inv s := Machine.exec_inv (P := Inv) (fun _ _ _ h => step_inv h) hrun init_inv
  refine ⟨hs.after, hs.once, ?_, fun hstuck => ?_⟩
  · have hle := Machine.exec_length_le (fun _ _ _ h => step_potential h) hrun init_inv
    have hstart : potential (St.init : St ι) = 2 * Fintype.card ι + 2 := by
      simp only [potential, St.init, Cond.empty, User.rank, Handler.rank, Finset.card_empty, Finset.sum_const, Finset.card_univ,
        smul_eq_mul]
      omega
    rw [hstart] at hle
    exact (Nat.le_add_right _ _).trans hle
  · have hdone : s.handler = .done := by
      cases hd : s.handler with
      | start =>
        have hnone := hstuck .complete (by simp)
        rw [step, if_pos hd] at hnone
        cases hnone
      | unlocked =>
        have hnone := hstuck .notifyAll (by simp)
        rw [step, if_pos hd] at hnone
        cases hnone
      | done => rfl
    refine ⟨hdone, fun i => ?_⟩
    rw [← hs.executed i]
    cases hu : s.user i with
    | start =>
      have hnone := hstuck (.call i) (by simp)
      rw [step, if_pos hu] at hnone
      cases hnone
    | waiting =>
      have hbusy := Cond.mem_busy.1 ((hs.waiting i).1 hu)
      rw [hs.nobody hdone] at hbusy
      have hnone := hstuck (.resume i) (by simp)
      rw [step, if_pos (hbusy.resolve_left (Finset.notMem_empty i))] at hnone
      cases hnone
    | executed => rfl

end Stops

/-- one user waits, the other comes between the unlock and the notification -/
def between : List (Act Bool) := [.call true, .complete, .call false, .notifyAll, .resume true]

theorem callbacks_run_between : ∃ s, Machine.exec step St.init between = some s ∧ s.log = [false, true] ∧
    s.event_complete = true ∧ s.log.Nodup := by
  have hrun : Machine.exec step St.init between = some _ := rfl
  obtain ⟨hafter, honce, -⟩ := callbacks_run hrun
  exact ⟨_, hrun, rfl, hafter (List.cons_ne_nil _ _), honce⟩

end InterviewPrep.Concurrency.EventLatch
