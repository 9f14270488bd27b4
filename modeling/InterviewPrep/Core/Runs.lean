/-
Consecutive integers in a finite set.

`runLengths` has the lengths of the runs. There is a longest (`exists_isGreatest`), and two ways to get to it:
- from the starts of the runs: `exists_measured` says that every run is part of one that is measured from its start;
- from below, one element after the other: `isGreatest_insert` compares the longest run so far with the one that ends in the new
  element.
-/
import Mathlib.Data.Finset.Card
import Mathlib.Order.Lattice.Nat
import Mathlib.Tactic

namespace InterviewPrep.Runs

variable {S : Finset ℤ} {x a : ℤ} {m n : ℕ}

/-- the `m` integers from `x` on -/
def Run (S : Finset ℤ) (x : ℤ) (m : ℕ) : Prop := ∀ k : ℕ, k < m → x + k ∈ S

def runLengths (S : Finset ℤ) : Set ℕ := {m | ∃ x, Run S x m}

theorem zero_mem_runLengths (S : Finset ℤ) : 0 ∈ runLengths S := ⟨0, fun k hk => absurd hk (Nat.not_lt_zero k)⟩

theorem max_mem_runLengths (hm : m ∈ runLengths S) (hn : n ∈ runLengths S) : max m n ∈ runLengths S := by
  rcases max_choice m n with hmax | hmax
  · rwa [hmax]
  · rwa [hmax]

theorem Run.le_card (h : Run S x m) : m ≤ S.card := by
  have hcard := Finset.card_le_card_of_injOn (s := Finset.range m) (t := S) (fun k : ℕ => x + k)
    (fun k hk => h k (Finset.mem_range.1 hk)) fun k _ l _ heq => Nat.cast_injective (add_left_cancel heq)
  rwa [Finset.card_range] at hcard

theorem exists_isGreatest (S : Finset ℤ) : ∃ m, IsGreatest (runLengths S) m := by
  have hbounded : BddAbove (runLengths S) := ⟨S.card, fun m ⟨_, hm⟩ => hm.le_card⟩
  exact ⟨sSup (runLengths S), Nat.sSup_mem ⟨0, zero_mem_runLengths S⟩ hbounded, fun m hm => le_csSup hbounded hm⟩

/-! ## From the starts -/

/-- the `m` integers from `x` on, and neither the one before nor the one after them -/
structure Measured (S : Finset ℤ) (x : ℤ) (m : ℕ) : Prop where
  run : Run S x m
  start : x - 1 ∉ S
  stop : x + m ∉ S

/-- there is one run from each start -/
theorem Measured.le (h : Measured S x m) (h' : Measured S x n) : n ≤ m := by
  by_contra hlong
  exact h.stop (h'.run m (not_le.1 hlong))

theorem exists_stop (S : Finset ℤ) (x : ℤ) : ∃ m, Run S x m ∧ x + m ∉ S := by
  have hstop : ∃ m : ℕ, x + m ∉ S := by
    by_contra hall
    simp only [not_exists, not_not] at hall
    have hrun : Run S x (S.card + 1) := fun k _ => hall k
    have := hrun.le_card
    omega
  exact ⟨Nat.find hstop, fun k hk => not_not.1 (Nat.find_min hstop hk), Nat.find_spec hstop⟩

/-- from any element down to a start -/
theorem exists_start (hx : x ∈ S) : ∃ n : ℕ, x - n - 1 ∉ S ∧ Run S (x - n) (n + 1) := by
  by_contra hnone
  simp only [not_exists, not_and'] at hnone
  have hall : ∀ n : ℕ, Run S (x - n) (n + 1) := by
    intro n
    induction n with
    | zero =>
      intro k hk
      obtain rfl := Nat.lt_one_iff.1 hk
      simpa using hx
    | succ n ih =>
      have hnext := not_not.1 (hnone n ih)
      intro k hk
      cases k with
      | zero =>
        convert hnext using 1
        omega
      | succ k =>
        convert ih k (by omega) using 1
        omega
  have := (hall S.card).le_card
  omega

theorem exists_measured (h : Run S x m) (hm : 0 < m) : ∃ y l, y ∈ S ∧ Measured S y l ∧ m ≤ l := by
  have hx : x ∈ S := by simpa using h 0 hm
  obtain ⟨n, hstart, hbelow⟩ := exists_start hx
  obtain ⟨l, hrun, hstop⟩ := exists_stop S (x - n)
  have hfirst : x - n ∈ S := by simpa using hbelow 0 (Nat.succ_pos n)
  refine ⟨x - n, l, hfirst, ⟨hrun, hstart, hstop⟩, ?_⟩
  by_contra hless
  refine hstop ?_
  rcases Nat.lt_or_ge l (n + 1) with hl | hl
  · exact hbelow l hl
  · convert h (l - n) (by omega) using 1
    omega

/-- the longest that is measured is the longest -/
theorem isGreatest_of_measured (hm : m ∈ runLengths S) (hall : ∀ y ∈ S, ∀ l, Measured S y l → l ≤ m) :
    IsGreatest (runLengths S) m := by
  refine ⟨hm, ?_⟩
  rintro k ⟨x, hx⟩
  rcases Nat.eq_zero_or_pos k with rfl | hk
  · exact Nat.zero_le m
  · obtain ⟨y, l, hy, hmeasured, hle⟩ := exists_measured hx hk
    exact hle.trans (hall y hy l hmeasured)

/-! ## From below -/

theorem isGreatest_empty : IsGreatest (runLengths ∅) 0 := ⟨zero_mem_runLengths ∅, fun _ ⟨_, h⟩ => h.le_card⟩

/-- the `n` integers up to `x`, and not the one before them -/
structure Ends (S : Finset ℤ) (x : ℤ) (n : ℕ) : Prop where
  run : ∀ k : ℕ, k < n → x - k ∈ S
  start : x - n ∉ S

theorem ends_succ (h : Ends S x n) : Ends (insert (x + 1) S) (x + 1) (n + 1) := by
  refine ⟨fun k hk => ?_, fun hmem => ?_⟩
  · cases k with
    | zero => simp
    | succ k =>
      refine Finset.mem_insert_of_mem ?_
      convert h.run k (by omega) using 1
      omega
  · rcases Finset.mem_insert.1 hmem with heq | hold
    · push_cast at heq
      omega
    · refine h.start ?_
      convert hold using 1
      omega

theorem ends_one (ha : a - 1 ∉ S) : Ends (insert a S) a 1 := by
  refine ⟨fun k hk => ?_, fun hmem => ?_⟩
  · obtain rfl := Nat.lt_one_iff.1 hk
    simp
  · rcases Finset.mem_insert.1 hmem with heq | hold
    · push_cast at heq
      omega
    · exact ha (by simpa using hold)

/-- a new greatest element is in no run but the one that it ends -/
theorem isGreatest_insert (hm : IsGreatest (runLengths S) m) (hmax : ∀ z ∈ S, z < a) (hends : Ends (insert a S) a n) :
    IsGreatest (runLengths (insert a S)) (max m n) := by
  constructor
  · obtain ⟨x, hx⟩ := hm.1
    refine max_mem_runLengths ⟨x, fun k hk => Finset.mem_insert_of_mem (hx k hk)⟩ ⟨a - n + 1, fun k hk => ?_⟩
    convert hends.run (n - 1 - k) (by omega) using 1
    omega
  · rintro l ⟨x, hx⟩
    by_cases hend : ∃ k : ℕ, k < l ∧ x + k = a
    · -- the run is up to `a`, since there is nothing after it
      obtain ⟨k, hk, rfl⟩ := hend
      have hlast := hx (l - 1) (by omega)
      have hle : x + (l - 1 : ℕ) ≤ x + k := by
        rcases Finset.mem_insert.1 hlast with heq | hold
        · exact heq.le
        · exact (hmax _ hold).le
      refine le_max_of_le_right ?_
      by_contra hlong
      refine hends.start ?_
      convert hx (k - n) (by omega) using 1
      omega
    · refine le_max_of_le_left (hm.2 ⟨x, fun k hk => ?_⟩)
      exact Finset.mem_of_mem_insert_of_ne (hx k hk) fun heq => hend ⟨k, hk, heq⟩

end InterviewPrep.Runs
