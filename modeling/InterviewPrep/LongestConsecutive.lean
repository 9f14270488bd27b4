/-
The longest run of consecutive numbers: pureStorage/longestConsecutiveSequence.cpp.

`longestConsecutive` looks for the runs from their starts in a set, `longestConsecutiveSorting` counts in the sorted vector, which
it leaves to the caller. Numbers and counts are `int`s; an overflow and a loop that does not end are `none`.

- `numLoop_eq`: every run is measured from its start;
- `longestConsecutive_greatest`: the longest is returned, if its length is an `int`, and `longest_overflows` is one that is not;
- `sortedLoop_greatest`: the counters have the longest run so far and the one that is going on;
- `sorting_iff`: the second version agrees, but for the empty vector and those with more elements than `int i` can count.
-/
import Mathlib.Data.List.Sort
import InterviewPrep.Core.Runs
import InterviewPrep.Core.Text

namespace InterviewPrep.LongestConsecutive

open Numeral (signed signed_of_small signed_of_big)
open Text (charAt charAt_natCast charAt_pred)
open Runs (Run Measured Ends runLengths)

/-! ## Model -/

/-- `while (set.count(y))` -/
def countLoop (set : Finset ℤ) : ℕ → ℤ → Option ℤ
  | 0, _ => none
  | fuel + 1, y =>
    if y ∈ set then do
      let y ← signed (y + 1)
      countLoop set fuel y
    else some y

/-- the second `for (int num : nums)` -/
def numLoop (set : Finset ℤ) : List ℤ → ℤ → Option ℤ
  | [], longest => some longest
  | num :: nums, longest => do
    let before ← signed (num - 1)
    if before ∉ set then do
      let y ← signed (num + 1)
      let y ← countLoop set (set.card + 1) y
      let length ← signed (y - num)
      numLoop set nums (max longest length)
    else numLoop set nums longest

def longestConsecutive (nums : List ℤ) : Option ℤ :=
  numLoop (nums.foldl (fun set num => insert num set) ∅) nums 0

/-- `for (int i = 1; i < nums.size(); i++)`, with `max` and `count` -/
def sortedLoop (nums : List ℤ) : ℕ → ℤ → ℤ → ℤ → Option ℤ
  | 0, _, _, _ => none
  | fuel + 1, i, longest, count =>
    if i < nums.length then do
      let num ← charAt nums i
      let previous ← charAt nums (i - 1)
      let following ← signed (previous + 1)
      if num = following then do
        let count ← signed (count + 1)
        let i ← signed (i + 1)
        sortedLoop nums fuel i longest count
      else if num = previous then do
        let i ← signed (i + 1)
        sortedLoop nums fuel i longest count
      else do
        let i ← signed (i + 1)
        sortedLoop nums fuel i (max longest count) 1
    else some (max longest count)

/-- the vector is sorted in place -/
def longestConsecutiveSorting (nums : List ℤ) : Option (ℤ × List ℤ) := do
  let nums := nums.insertionSort (· ≤ ·)
  let longest ← sortedLoop nums (nums.length + 1) 1 0 1
  some (longest, nums)

/-- the numbers that have an `int` before and after them -/
def Inside (num : ℤ) : Prop := -2 ^ 31 < num ∧ num < 2 ^ 31 - 1

instance : DecidablePred Inside := fun _ => inferInstanceAs (Decidable (_ ∧ _))

/-! ## The set -/

variable {set : Finset ℤ} {nums : List ℤ} {num y : ℤ} {m n fuel longest count : ℕ}

theorem foldl_insert (nums : List ℤ) : nums.foldl (fun set num => insert num set) set = set ∪ nums.toFinset := by
  induction nums generalizing set with
  | nil => simp
  | cons num nums ih =>
    rw [List.foldl_cons, ih, List.toFinset_cons, Finset.insert_union, Finset.union_insert]

/-- up to the end of the run -/
theorem countLoop_stop (hset : ∀ z ∈ set, Inside z) (h : Run set num m) (hstop : num + m ∉ set) (hn : n ≤ m)
    (hfuel : m - n < fuel) :
    countLoop set fuel (num + n) = some (num + m) := by
  induction fuel generalizing n with
  | zero => omega
  | succ fuel ih =>
    rw [countLoop]
    rcases hn.lt_or_eq with hlt | rfl
    · obtain ⟨hlow, hhigh⟩ := hset _ (h n hlt)
      rw [if_pos (h n hlt), signed_of_small (by omega) (by omega), Option.bind_eq_bind, Option.bind_some, add_assoc,
        ← Nat.cast_succ]
      exact ih hlt (by omega)
    · rw [if_neg hstop]

theorem countLoop_measured (hset : ∀ z ∈ set, Inside z) (hnum : num ∈ set) (hbefore : num - 1 ∉ set) :
    ∃ l, Measured set num l ∧ countLoop set (set.card + 1) (num + 1) = some (num + l) := by
  obtain ⟨l, hrun, hstop⟩ := Runs.exists_stop set num
  have hpos : 1 ≤ l := by
    by_contra hzero
    obtain rfl : l = 0 := by omega
    rw [Nat.cast_zero, add_zero] at hstop
    exact hstop hnum
  have hcard := hrun.le_card
  have hfuel : l - 1 < set.card + 1 := by omega
  exact ⟨l, ⟨hrun, hbefore, hstop⟩, countLoop_stop hset hrun hstop hpos hfuel⟩

/-- the longest run is returned if its length is an `int`; otherwise the difference overflows at its start -/
theorem numLoop_eq (longest : ℕ) (hset : ∀ z ∈ set, Inside z) (hsub : ∀ z ∈ nums, z ∈ set) (hm : IsGreatest (runLengths set) m)
    (hlongest : longest ∈ runLengths set) (hsmall : longest < 2 ^ 31)
    (hseen : ∀ z ∈ set, z ∉ nums → ∀ l, Measured set z l → l ≤ longest) :
    numLoop set nums longest = if m < 2 ^ 31 then some (m : ℤ) else none := by
  induction nums generalizing longest with
  | nil =>
    obtain rfl : m = longest :=
      hm.unique (Runs.isGreatest_of_measured hlongest fun z hz l hl => hseen z hz List.not_mem_nil l hl)
    rw [if_pos hsmall]
    rfl
  | cons num nums ih =>
    rw [List.forall_mem_cons] at hsub
    obtain ⟨hnum, hnums⟩ := hsub
    obtain ⟨hlow, hhigh⟩ := hset num hnum
    rw [numLoop, signed_of_small (by omega) (by omega), Option.bind_eq_bind, Option.bind_some]
    by_cases hbefore : num - 1 ∈ set
    · rw [if_neg (not_not.2 hbefore)]
      refine ih _ hnums hlongest hsmall fun z hz hnot l hl => ?_
      rcases eq_or_ne z num with rfl | hne
      · exact absurd hbefore hl.start
      · exact hseen z hz (fun hmem => hnot (List.mem_of_ne_of_mem hne hmem)) l hl
    · obtain ⟨l, hmeasured, hloop⟩ := countLoop_measured hset hnum hbefore
      rw [if_pos hbefore, signed_of_small (by omega) (by omega), Option.bind_some, hloop, Option.bind_some, add_sub_cancel_left]
      by_cases hl : l < 2 ^ 31
      · rw [signed_of_small (by omega) (by omega), Option.bind_some, ← Nat.cast_max]
        refine ih _ hnums (Runs.max_mem_runLengths hlongest ⟨num, hmeasured.run⟩) (max_lt hsmall hl) fun z hz hnot k hk => ?_
        rcases eq_or_ne z num with rfl | hne
        · exact le_max_of_le_right (hmeasured.le hk)
        · exact le_max_of_le_left (hseen z hz (fun hmem => hnot (List.mem_of_ne_of_mem hne hmem)) k hk)
      · have hle : l ≤ m := hm.2 ⟨num, hmeasured.run⟩
        rw [signed_of_big (by omega), Option.bind_none, if_neg (by omega)]

theorem longestConsecutive_eq (h : ∀ num ∈ nums, Inside num) (hm : IsGreatest (runLengths nums.toFinset) m) :
    longestConsecutive nums = if m < 2 ^ 31 then some (m : ℤ) else none := by
  rw [longestConsecutive, foldl_insert, Finset.empty_union]
  exact numLoop_eq 0 (fun z hz => h z (List.mem_toFinset.1 hz)) (fun z => List.mem_toFinset.2) hm
    (Runs.zero_mem_runLengths _) (by norm_num) fun z hz hnot => absurd (List.mem_toFinset.1 hz) hnot

theorem runLengths_toFinset (nums : List ℤ) :
    runLengths nums.toFinset = {m : ℕ | ∃ x : ℤ, ∀ k : ℕ, k < m → x + k ∈ nums} := by
  ext m
  simp only [runLengths, Run, List.mem_toFinset]

/-- **The longest run.** It is returned for all vectors without the least and the greatest `int`, if its length is an `int`. -/
theorem longestConsecutive_greatest (nums : List ℤ) (h : ∀ num ∈ nums, -2 ^ 31 < num ∧ num < 2 ^ 31 - 1) :
    ∃ m, IsGreatest {m : ℕ | ∃ x : ℤ, ∀ k : ℕ, k < m → x + k ∈ nums} m ∧
      (m < 2 ^ 31 → longestConsecutive nums = some (m : ℤ)) ∧ (2 ^ 31 ≤ m → longestConsecutive nums = none) := by
  obtain ⟨m, hm⟩ := Runs.exists_isGreatest nums.toFinset
  have hres := longestConsecutive_eq h hm
  rw [runLengths_toFinset] at hm
  refine ⟨m, hm, fun hsmall => ?_, fun hbig => ?_⟩
  · rw [hres, if_pos hsmall]
  · rw [hres, if_neg (not_lt.2 hbig)]

theorem longestConsecutive_four :
    ∃ m, IsGreatest {m : ℕ | ∃ x : ℤ, ∀ k : ℕ, k < m → x + k ∈ ([100, 4, 200, 1, 3, 2, 3] : List ℤ)} m ∧
      (m < 2 ^ 31 → longestConsecutive [100, 4, 200, 1, 3, 2, 3] = some (m : ℤ)) ∧
      (2 ^ 31 ≤ m → longestConsecutive [100, 4, 200, 1, 3, 2, 3] = none) :=
  longestConsecutive_greatest _ (by decide)

/-- the numbers from -1 on, as many as there are nonnegative `int`s -/
theorem longest_overflows :
    ¬ ∀ nums : List ℤ, (∀ num ∈ nums, -2 ^ 31 < num ∧ num < 2 ^ 31 - 1) →
      ∃ m, IsGreatest {m : ℕ | ∃ x : ℤ, ∀ k : ℕ, k < m → x + k ∈ nums} m ∧ longestConsecutive nums = some (m : ℤ) := by
  intro hall
  have hmem : ∀ num : ℤ, num ∈ (List.range (2 ^ 31)).map (fun k : ℕ => (k : ℤ) - 1) ↔ -1 ≤ num ∧ num < 2 ^ 31 - 1 := by
    intro num
    rw [List.mem_map]
    constructor
    · rintro ⟨k, hk, rfl⟩
      have := List.mem_range.1 hk
      omega
    · rintro ⟨hlow, hhigh⟩
      exact ⟨(num + 1).toNat, List.mem_range.2 (by omega), by omega⟩
  have hinside : ∀ num ∈ (List.range (2 ^ 31)).map (fun k : ℕ => (k : ℤ) - 1), Inside num := by
    intro num hnum
    have := (hmem num).1 hnum
    exact ⟨by omega, this.2⟩
  obtain ⟨m, hm, hres⟩ := hall _ hinside
  have hlong : 2 ^ 31 ≤ m := hm.2 ⟨-1, fun k hk => (hmem _).2 (by omega)⟩
  rw [← runLengths_toFinset] at hm
  rw [longestConsecutive_eq hinside hm, if_neg (not_lt.2 hlong)] at hres
  cases hres

/-! ## The sorted vector -/

theorem toFinset_take_succ {i : ℕ} (h : nums[i]? = some num) :
    (nums.take (i + 1)).toFinset = insert num (nums.take i).toFinset := by
  obtain ⟨hi, rfl⟩ := List.getElem?_eq_some_iff.1 h
  rw [List.take_succ_eq_append_getElem hi, List.toFinset_append, Finset.union_comm]
  rfl

/-- the counters after the first `i` numbers, the last of them `x` -/
structure Counted (nums : List ℤ) (i : ℕ) (x : ℤ) (longest count : ℕ) : Prop where
  last : ∀ z ∈ (nums.take i).toFinset, z ≤ x
  ends : Ends (nums.take i).toFinset x count
  greatest : IsGreatest (runLengths (nums.take i).toFinset) (max longest count)
  le : longest ≤ i ∧ count ≤ i

section Counted

variable {i : ℕ} {x : ℤ} (h : Counted nums i x longest count) (hi : nums[i]? = some num)
include h hi

theorem Counted.succ (hnum : num = x + 1) : Counted nums (i + 1) num longest (count + 1) := by
  have htake := toFinset_take_succ hi
  subst hnum
  have hends := Runs.ends_succ h.ends
  have hless : ∀ z ∈ (nums.take i).toFinset, z < x + 1 := fun z hz => Int.lt_add_one_of_le (h.last z hz)
  rw [← htake] at hends
  refine ⟨fun z hz => ?_, hends, ?_, Nat.le_succ_of_le h.le.1, Nat.succ_le_succ h.le.2⟩
  · rw [htake, Finset.mem_insert] at hz
    rcases hz with rfl | hz
    · exact le_rfl
    · exact (hless z hz).le
  · have hgreatest := Runs.isGreatest_insert h.greatest hless (htake ▸ hends)
    rwa [← htake, max_assoc, max_eq_right (Nat.le_succ count)] at hgreatest

theorem Counted.same (hnum : num = x) (hcount : 0 < count) : Counted nums (i + 1) num longest count := by
  have htake := toFinset_take_succ hi
  subst hnum
  have hmem : num ∈ (nums.take i).toFinset := by simpa using h.ends.run 0 hcount
  rw [Finset.insert_eq_of_mem hmem] at htake
  exact ⟨htake ▸ h.last, htake ▸ h.ends, htake ▸ h.greatest, Nat.le_succ_of_le h.le.1, Nat.le_succ_of_le h.le.2⟩

theorem Counted.gap (hnum : x + 1 < num) : Counted nums (i + 1) num (max longest count) 1 := by
  have htake := toFinset_take_succ hi
  have hless : ∀ z ∈ (nums.take i).toFinset, z < num := fun z hz => (h.last z hz).trans_lt (by omega)
  have hends : Ends (insert num (nums.take i).toFinset) num 1 := Runs.ends_one fun hmem => by
    have := h.last _ hmem
    omega
  refine ⟨fun z hz => ?_, htake ▸ hends, ?_, (max_le h.le.1 h.le.2).trans (Nat.le_succ i), Nat.succ_le_succ (Nat.zero_le i)⟩
  · rw [htake, Finset.mem_insert] at hz
    rcases hz with rfl | hz
    · exact le_rfl
    · exact (hless z hz).le
  · rw [htake]
    exact Runs.isGreatest_insert h.greatest hless hends

end Counted

theorem counted_first (hi : nums[0]? = some num) : Counted nums 1 num 0 1 := by
  have htake := toFinset_take_succ hi
  rw [List.take_zero, List.toFinset_nil] at htake
  have hends : Ends (insert num ∅) num 1 := Runs.ends_one (Finset.notMem_empty _)
  refine ⟨fun z hz => ?_, htake ▸ hends, ?_, ⟨Nat.zero_le 1, le_rfl⟩⟩
  · rw [htake, Finset.mem_insert] at hz
    rcases hz with rfl | hz
    · exact le_rfl
    · exact absurd hz (Finset.notMem_empty z)
  · rw [htake]
    exact Runs.isGreatest_insert Runs.isGreatest_empty (fun z hz => absurd hz (Finset.notMem_empty z)) hends

theorem sortedLoop_greatest {i : ℕ} {x : ℤ} (hsorted : nums.Pairwise (· ≤ ·)) (hinside : ∀ num ∈ nums, Inside num)
    (hlen : nums.length < 2 ^ 31) (hx : nums[i]? = some x) (h : Counted nums (i + 1) x longest count) (hcount : 0 < count)
    (hfuel : nums.length - (i + 1) < fuel) :
    ∃ m : ℕ, sortedLoop nums fuel (i + 1 : ℕ) longest count = some (m : ℤ) ∧ IsGreatest (runLengths nums.toFinset) m := by
  induction fuel generalizing i x longest count with
  | zero => omega
  | succ fuel ih =>
    obtain ⟨hi, hget⟩ := List.getElem?_eq_some_iff.1 hx
    rw [sortedLoop, charAt_natCast, charAt_pred, hx]
    by_cases hlast : i + 1 < nums.length
    · obtain ⟨num, hnum⟩ : ∃ num, nums[i + 1]? = some num := ⟨_, List.getElem?_eq_getElem hlast⟩
      obtain ⟨hnext, hget'⟩ := List.getElem?_eq_some_iff.1 hnum
      have hle : x ≤ num := by
        rw [← hget, ← hget']
        exact List.pairwise_iff_getElem.1 hsorted i (i + 1) hi hnext (Nat.lt_succ_self i)
      obtain ⟨hlow, hhigh⟩ := hinside x (hget ▸ List.getElem_mem hi)
      have hindex : signed (((i + 1 : ℕ) : ℤ) + 1) = some ((i + 1 + 1 : ℕ) : ℤ) := signed_of_small (by omega) (by omega)
      have hrest : nums.length - (i + 1 + 1) < fuel := by omega
      have hmore := h.le.2
      rw [if_pos (by omega), hnum, Option.bind_eq_bind, Option.bind_some, Option.bind_some,
        signed_of_small (by omega) (by omega), Option.bind_some, hindex]
      by_cases hfollowing : num = x + 1
      · rw [if_pos hfollowing, signed_of_small (by omega) (by omega), Option.bind_some, Option.bind_some, ← Nat.cast_succ]
        exact ih hnum (h.succ hnum hfollowing) (Nat.succ_pos count) hrest
      · rw [if_neg hfollowing]
        by_cases hsame : num = x
        · rw [if_pos hsame, Option.bind_some]
          exact ih hnum (h.same hnum hsame hcount) hcount hrest
        · rw [if_neg hsame, Option.bind_some, ← Nat.cast_max]
          exact ih hnum (h.gap hnum (by omega)) Nat.one_pos hrest
    · refine ⟨max longest count, ?_, ?_⟩
      · rw [if_neg (by omega), Nat.cast_max]
      · have hgreatest := h.greatest
        rwa [List.take_of_length_le (by omega)] at hgreatest

/-- the index is an `int` to the end -/
theorem sortedLoop_some {i : ℤ} {longest count r : ℤ} (h : sortedLoop nums fuel i longest count = some r) (hi : i < 2 ^ 31) :
    (nums.length : ℤ) < 2 ^ 31 := by
  induction fuel generalizing i longest count with
  | zero => cases h
  | succ fuel ih =>
    rw [sortedLoop] at h
    split_ifs at h with hin
    · rw [Option.bind_eq_bind, Option.bind_eq_some_iff] at h
      obtain ⟨num, -, h⟩ := h
      rw [Option.bind_eq_some_iff] at h
      obtain ⟨previous, -, h⟩ := h
      rw [Option.bind_eq_some_iff] at h
      obtain ⟨following, -, h⟩ := h
      have hindex : ∀ {longest count : ℤ}, ((signed (i + 1)).bind fun i => sortedLoop nums fuel i longest count) = some r →
          (nums.length : ℤ) < 2 ^ 31 := by
        intro longest count hrest
        obtain ⟨next, hnext, hrest⟩ := Option.bind_eq_some_iff.1 hrest
        obtain ⟨hsucc, -, hsmall⟩ := Numeral.signed_eq_some.1 hnext
        exact ih hrest (by omega)
      split_ifs at h
      · obtain ⟨count', -, h⟩ := Option.bind_eq_some_iff.1 h
        exact hindex h
      · exact hindex h
      · exact hindex h
    · omega

theorem longestConsecutiveSorting_some {r : ℤ × List ℤ} (h : longestConsecutiveSorting nums = some r) : nums.length < 2 ^ 31 := by
  rw [longestConsecutiveSorting, Option.bind_eq_bind, Option.bind_eq_some_iff] at h
  obtain ⟨longest, hloop, -⟩ := h
  have hlen := sortedLoop_some hloop (by norm_num)
  rw [List.length_insertionSort] at hlen
  exact_mod_cast hlen

theorem longestConsecutiveSorting_eq (hne : nums ≠ []) (h : ∀ num ∈ nums, Inside num) (hlen : nums.length < 2 ^ 31)
    (hm : IsGreatest (runLengths nums.toFinset) m) :
    longestConsecutiveSorting nums = some ((m : ℤ), nums.insertionSort (· ≤ ·)) := by
  have hperm := List.perm_insertionSort (· ≤ ·) nums
  have hpos := List.length_pos_iff.2 hne
  rw [← hperm.length_eq] at hlen hpos
  obtain ⟨k, hloop, hk⟩ := sortedLoop_greatest (i := 0) (List.pairwise_insertionSort (· ≤ ·) nums)
    (fun num hnum => h num (hperm.mem_iff.1 hnum)) hlen (List.getElem?_eq_getElem hpos)
    (counted_first (List.getElem?_eq_getElem hpos)) Nat.one_pos (Nat.lt_succ_of_le (Nat.sub_le _ _))
  rw [List.toFinset_eq_of_perm _ _ hperm] at hk
  obtain rfl := hm.unique hk
  rw [longestConsecutiveSorting, Option.bind_eq_bind]
  have hloop' : sortedLoop (nums.insertionSort (· ≤ ·)) ((nums.insertionSort (· ≤ ·)).length + 1) 1 0 1 = _ := hloop
  rw [hloop', Option.bind_some]

/-- **Both versions.** They return the same number exactly if there is an element and `int i` can count them. -/
theorem sorting_iff (nums : List ℤ) (h : ∀ num ∈ nums, -2 ^ 31 < num ∧ num < 2 ^ 31 - 1) :
    (∃ m, longestConsecutive nums = some m ∧ (longestConsecutiveSorting nums).map Prod.fst = some m) ↔
      nums ≠ [] ∧ nums.length < 2 ^ 31 := by
  constructor
  · rintro ⟨m, hm, hsorting⟩
    obtain ⟨r, hr, -⟩ := Option.map_eq_some_iff.1 hsorting
    refine ⟨?_, longestConsecutiveSorting_some hr⟩
    rintro rfl
    have hzero : longestConsecutive [] = some 0 := rfl
    have hone : (longestConsecutiveSorting []).map Prod.fst = some 1 := rfl
    rw [hzero] at hm
    rw [hone] at hsorting
    exact absurd (hm.trans hsorting.symm) (by decide)
  · rintro ⟨hne, hlen⟩
    obtain ⟨m, hm⟩ := Runs.exists_isGreatest nums.toFinset
    obtain ⟨x, hx⟩ := hm.1
    have hcard := hx.le_card.trans (List.toFinset_card_le nums)
    refine ⟨m, ?_, ?_⟩
    · rw [longestConsecutive_eq h hm, if_pos (by omega)]
    · rw [longestConsecutiveSorting_eq hne h hlen hm]
      rfl

theorem sorting_agrees :
    ∃ m, longestConsecutive [100, 4, 200, 1, 3, 2, 3] = some m ∧
      (longestConsecutiveSorting [100, 4, 200, 1, 3, 2, 3]).map Prod.fst = some m :=
  (sorting_iff [100, 4, 200, 1, 3, 2, 3] (by decide)).2 (by decide)

/-- **Nothing to count.** `count` begins with 1. -/
theorem sorting_empty :
    longestConsecutive [] = some 0 ∧ (longestConsecutiveSorting []).map Prod.fst = some 1 := by
  decide

end InterviewPrep.LongestConsecutive
