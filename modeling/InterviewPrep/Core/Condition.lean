/-
Condition variables: the threads asleep on one, and the threads woken that have not taken the lock again.

The two sets are disjoint (a field of `Cond`). A thread whose predicate is false joins the sleepers; a notification moves
one sleeper, or all, to the woken; a woken thread leaves when it tests its predicate again, and may join again. A sleeper
may also wake by itself. Which thread `notify_one` picks is up to the scheduler, so it is an argument of `notifyOne`, which
refuses a pick that is not possible.

`Covered c n`: if anyone is asleep, at least `n` threads are awake and have not looked yet. With `n` the number of things
to be had, this is what keeps a sleeper from being forgotten: every new thing comes with a notification
(`Covered.notifyOne`), and a thread that leaves takes at most one (`Covered.leave`).

`Promised c k n` is the same where the notifier has released the lock first: `k` notifications are still under way, and count
like threads awake.
-/
import Mathlib.Tactic

namespace InterviewPrep

/-- a condition variable -/
structure Cond (ι : Type) where
  waiting : Finset ι
  woken : Finset ι
  disjoint : Disjoint waiting woken

namespace Cond

variable {ι : Type} [DecidableEq ι]

omit [DecidableEq ι] in
@[ext] theorem ext {c c' : Cond ι} (hwaiting : c.waiting = c'.waiting) (hwoken : c.woken = c'.woken) : c = c' := by
  cases c
  cases c'
  simp_all

instance : DecidableEq (Cond ι) := fun c c' =>
  decidable_of_iff (c.waiting = c'.waiting ∧ c.woken = c'.woken)
    ⟨fun h => ext h.1 h.2, fun h => ⟨congrArg waiting h, congrArg woken h⟩⟩

def empty : Cond ι := ⟨∅, ∅, Finset.disjoint_empty_left ∅⟩

/-- the threads that have something to do with the condition -/
def busy (c : Cond ι) : Finset ι := c.waiting ∪ c.woken

/-- fall asleep -/
def join (c : Cond ι) (i : ι) : Cond ι where
  waiting := insert i c.waiting
  woken := c.woken.erase i
  disjoint := by
    rw [Finset.disjoint_insert_left]
    exact ⟨Finset.notMem_erase i c.woken, c.disjoint.mono_right (Finset.erase_subset i c.woken)⟩

/-- wake up, notified or not -/
def wake (c : Cond ι) (i : ι) : Cond ι where
  waiting := c.waiting.erase i
  woken := insert i c.woken
  disjoint := by
    rw [Finset.disjoint_insert_right]
    exact ⟨Finset.notMem_erase i c.waiting, c.disjoint.mono_left (Finset.erase_subset i c.waiting)⟩

/-- go on after the predicate turned out true -/
def leave (c : Cond ι) (i : ι) : Cond ι where
  waiting := c.waiting
  woken := c.woken.erase i
  disjoint := c.disjoint.mono_right (Finset.erase_subset i c.woken)

/-- the notification goes to a sleeper if there is one -/
def notifyOne (c : Cond ι) : Option ι → Option (Cond ι)
  | none => if c.waiting = ∅ then some c else none
  | some i => if i ∈ c.waiting then some (c.wake i) else none

def notifyAll (c : Cond ι) : Cond ι := ⟨∅, c.waiting ∪ c.woken, Finset.disjoint_empty_left _⟩

variable {c c' : Cond ι} {i : ι} {w : Option ι}

/-- what a notification can do -/
theorem notifyOne_cases (h : c.notifyOne w = some c') :
    (c.waiting = ∅ ∧ c' = c) ∨ ∃ i ∈ c.waiting, c' = c.wake i := by
  cases w with
  | none =>
    rw [notifyOne] at h
    split_ifs at h with hempty
    exact Or.inl ⟨hempty, (Option.some.inj h).symm⟩
  | some i =>
    rw [notifyOne] at h
    split_ifs at h with hmem
    exact Or.inr ⟨i, hmem, (Option.some.inj h).symm⟩

theorem waiting_notifyOne (h : c.notifyOne w = some c') : c'.waiting ⊆ c.waiting := by
  rcases notifyOne_cases h with ⟨-, rfl⟩ | ⟨i, -, rfl⟩
  · exact Finset.Subset.refl _
  · exact Finset.erase_subset i c.waiting

/-! ## Busy threads -/

theorem mem_busy {t : ι} : t ∈ c.busy ↔ t ∈ c.waiting ∨ t ∈ c.woken := Finset.mem_union

theorem mem_busy_leave {t : ι} : t ∈ (c.leave i).busy ↔ t ∈ c.waiting ∨ t ≠ i ∧ t ∈ c.woken := by
  rw [mem_busy]
  exact or_congr_right Finset.mem_erase

theorem busy_join : (c.join i).busy = insert i c.busy := by
  ext t
  rw [mem_busy, Finset.mem_insert, mem_busy]
  simp only [join, Finset.mem_insert, Finset.mem_erase]
  tauto

theorem busy_wake (hi : i ∈ c.waiting) : (c.wake i).busy = c.busy := by
  ext t
  rw [mem_busy, mem_busy]
  simp only [wake, Finset.mem_insert, Finset.mem_erase]
  rcases eq_or_ne t i with rfl | hne
  · simp [hi]
  · simp [hne]

theorem busy_notifyOne (h : c.notifyOne w = some c') : c'.busy = c.busy := by
  rcases notifyOne_cases h with ⟨-, rfl⟩ | ⟨i, hi, rfl⟩
  · rfl
  · exact busy_wake hi

theorem busy_notifyAll : c.notifyAll.busy = c.busy := by
  rw [busy, notifyAll, Finset.empty_union, busy]

/-- a notification is always possible -/
theorem exists_notifyOne (c : Cond ι) : ∃ w c', c.notifyOne w = some c' := by
  rcases c.waiting.eq_empty_or_nonempty with hempty | ⟨i, hi⟩
  · exact ⟨none, c, if_pos hempty⟩
  · exact ⟨some i, c.wake i, if_pos hi⟩

/-! ## No sleeper is forgotten -/

/-- if anyone sleeps, `n` threads are awake and have not looked -/
def Covered (c : Cond ι) (n : ℕ) : Prop := c.waiting.Nonempty → n ≤ c.woken.card

omit [DecidableEq ι] in
theorem Covered.mono {m n : ℕ} (h : c.Covered n) (hmn : m ≤ n) : c.Covered m := fun hne => hmn.trans (h hne)

omit [DecidableEq ι] in
theorem covered_zero (c : Cond ι) : c.Covered 0 := fun _ => Nat.zero_le _

omit [DecidableEq ι] in
theorem covered_of_empty (h : c.waiting = ∅) (n : ℕ) : c.Covered n := by
  intro hne
  rw [h] at hne
  exact absurd hne Finset.not_nonempty_empty

theorem Covered.wake {n : ℕ} (h : c.Covered n) (i : ι) : (c.wake i).Covered n := by
  intro hne
  have hsub : (c.wake i).waiting ⊆ c.waiting := Finset.erase_subset i c.waiting
  exact (h (hne.mono hsub)).trans (Finset.card_le_card (Finset.subset_insert i c.woken))

/-- a thing more, and a notification with it -/
theorem Covered.notifyOne {n : ℕ} (h : c.Covered n) (hnotify : c.notifyOne w = some c') : c'.Covered (n + 1) := by
  intro hne
  have hsleepers : c.waiting.Nonempty := hne.mono (waiting_notifyOne hnotify)
  rcases notifyOne_cases hnotify with ⟨hempty, -⟩ | ⟨i, hi, rfl⟩
  · rw [hempty] at hsleepers
    exact absurd hsleepers Finset.not_nonempty_empty
  · have hnew : i ∉ c.woken := Finset.disjoint_left.1 c.disjoint hi
    have hcard : (c.wake i).woken.card = c.woken.card + 1 := Finset.card_insert_of_notMem hnew
    rw [hcard]
    exact Nat.succ_le_succ (h hsleepers)

/-- a thing less, and perhaps a woken thread less -/
theorem Covered.leave {n : ℕ} (h : c.Covered (n + 1)) (i : ι) : (c.leave i).Covered n := by
  intro hne
  have hcard : c.woken.card - 1 ≤ (c.woken.erase i).card := Finset.pred_card_le_card_erase
  have hbefore : n + 1 ≤ c.woken.card := h hne
  exact (Nat.le_sub_one_of_lt hbefore).trans hcard

/-! ## Notifications under way -/

/-- if anyone sleeps, the threads awake and the notifications under way are at least `n` -/
def Promised (c : Cond ι) (k n : ℕ) : Prop := c.waiting.Nonempty → n ≤ c.woken.card + k

omit [DecidableEq ι] in
theorem promised_zero (c : Cond ι) (k : ℕ) : c.Promised k 0 := fun _ => Nat.zero_le _

omit [DecidableEq ι] in
/-- a thing more, its notification is to come -/
theorem Promised.owe {k n : ℕ} (h : c.Promised k n) : c.Promised (k + 1) (n + 1) := fun hne => Nat.succ_le_succ (h hne)

/-- the notification arrives -/
theorem Promised.notifyOne {k n : ℕ} (h : c.Promised (k + 1) n) (hnotify : c.notifyOne w = some c') : c'.Promised k n := by
  intro hne
  have hsleepers : c.waiting.Nonempty := hne.mono (waiting_notifyOne hnotify)
  rcases notifyOne_cases hnotify with ⟨hempty, -⟩ | ⟨i, hi, rfl⟩
  · rw [hempty] at hsleepers
    exact absurd hsleepers Finset.not_nonempty_empty
  · have hnew : i ∉ c.woken := Finset.disjoint_left.1 c.disjoint hi
    have hcard : (c.wake i).woken.card = c.woken.card + 1 := Finset.card_insert_of_notMem hnew
    have hbefore : n ≤ c.woken.card + (k + 1) := h hsleepers
    omega

theorem Promised.wake {k n : ℕ} (h : c.Promised k n) (i : ι) : (c.wake i).Promised k n := by
  intro hne
  have hsub : (c.wake i).waiting ⊆ c.waiting := Finset.erase_subset i c.waiting
  have hgrow : c.woken.card ≤ (c.wake i).woken.card := Finset.card_le_card (Finset.subset_insert i c.woken)
  exact (h (hne.mono hsub)).trans (Nat.add_le_add_right hgrow k)

/-- a thing less, and perhaps a woken thread less -/
theorem Promised.leave {k n : ℕ} (h : c.Promised k (n + 1)) (i : ι) : (c.leave i).Promised k n := by
  intro hne
  have hcard : c.woken.card - 1 ≤ (c.woken.erase i).card := Finset.pred_card_le_card_erase
  have hbefore : n + 1 ≤ c.woken.card + k := h hne
  change n ≤ (c.woken.erase i).card + k
  omega

end Cond

end InterviewPrep
