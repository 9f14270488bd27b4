/-
The maximum of an array that increases and then decreases: arista/bitonicPoint.cpp.

Both versions keep the size in an `int`. A read outside the array, the overflow of an `int` and a loop that does not end are
`none`.

The linear version stops at the first element that is not greater than the one before it. The binary search compares the middle
with both its neighbours, which need not exist:
- `findLoop_step` and `findLoop_outside`: what one round does;
- `findLoop_first`, `findLoop_last`: a peak at one of the ends is always lost;
- `findLoop_second`: so is a peak at the second place, for half of the lengths;
- `findMaximum_iff`: when the search meets its purpose, and `ends_lost` where it does not.
-/
import Mathlib.Data.List.Pairwise
import Mathlib.Order.Bounds.Basic
import InterviewPrep.Core.Text

namespace InterviewPrep.Arista.BitonicPoint

open Numeral (int int_le_natCast int_lt signed signed_of_small)
open Text (charAt charAt_natCast)

/-! ## Model -/

/-- `for (int i = 1; i < n; ++i)` -/
def linearLoop (arr : List ℤ) (n : ℤ) : ℕ → ℤ → ℤ → Option ℤ
  | 0, _, _ => none
  | fuel + 1, i, result =>
    if i < n then do
      let a ← charAt arr i
      let b ← charAt arr (i - 1)
      if a > b then linearLoop arr n fuel (i + 1) a else some result
    else some result

def findMaximumLinear (arr : List ℤ) : Option ℤ := do
  let result ← charAt arr 0
  linearLoop arr (int arr.length) (arr.length + 1) 1 result

/-- `while (l <= r)` -/
def findLoop (arr : List ℤ) : ℕ → ℤ → ℤ → Option ℤ
  | 0, _, _ => none
  | fuel + 1, l, r =>
    if l ≤ r then do
      let mid := l + (r - l) / 2
      let a ← charAt arr mid
      let b ← charAt arr (mid - 1)
      -- the element after the middle is only read if the first comparison holds
      if a > b then do
        let c ← charAt arr (mid + 1)
        if a > c then some a else findLoop arr fuel (mid + 1) r
      else findLoop arr fuel l (mid - 1)
    else some (-1)

def findMaximum (arr : List ℤ) : Option ℤ := do
  let r ← signed (int arr.length - 1)
  findLoop arr (arr.length + 1) 0 r

/-! ## Arrays with a peak -/

/-- strictly increasing up to the index `p`, and strictly decreasing from there on -/
structure Bitonic (arr : List ℤ) (p : ℕ) : Prop where
  peak_lt : p < arr.length
  up : (arr.take (p + 1)).Pairwise (· < ·)
  down : (arr.drop p).Pairwise (· > ·)

namespace Bitonic

variable {arr : List ℤ} {p i j : ℕ} {a b v : ℤ} (h : Bitonic arr p)
include h

theorem increases (hij : i < j) (hj : j ≤ p) (ha : arr[i]? = some a) (hb : arr[j]? = some b) : a < b := by
  have hup := List.pairwise_iff_getElem.1 h.up i j
  obtain ⟨hi', rfl⟩ := List.getElem?_eq_some_iff.1 ha
  obtain ⟨hj', rfl⟩ := List.getElem?_eq_some_iff.1 hb
  have hlen : (arr.take (p + 1)).length = min (p + 1) arr.length := List.length_take
  have hless := hup (by omega) (by omega) hij
  rwa [List.getElem_take, List.getElem_take] at hless

theorem decreases (hi : p ≤ i) (hij : i < j) (ha : arr[i]? = some a) (hb : arr[j]? = some b) : b < a := by
  have hdown := List.pairwise_iff_getElem.1 h.down (i - p) (j - p)
  obtain ⟨hi', rfl⟩ := List.getElem?_eq_some_iff.1 ha
  obtain ⟨hj', rfl⟩ := List.getElem?_eq_some_iff.1 hb
  have hlen : (arr.drop p).length = arr.length - p := List.length_drop
  have hless := hdown (by omega) (by omega) (by omega)
  simpa only [List.getElem_drop, Nat.add_sub_cancel' hi, Nat.add_sub_cancel' (hi.trans hij.le)] using hless

/-- an element is greater than the one before it up to the peak -/
theorem ascends_iff (ha : arr[i + 1]? = some a) (hb : arr[i]? = some b) : a > b ↔ i + 1 ≤ p := by
  rcases Nat.lt_or_ge i p with hi | hi
  · exact iff_of_true (h.increases (Nat.lt_succ_self i) hi hb ha) hi
  · exact iff_of_false (h.decreases hi (Nat.lt_succ_self i) hb ha).le.not_gt (by omega)

theorem le_peak (hv : arr[p]? = some v) (ha : arr[i]? = some a) : a ≤ v := by
  rcases Nat.lt_trichotomy i p with hi | rfl | hi
  · exact (h.increases hi le_rfl ha hv).le
  · rw [ha] at hv
    exact (Option.some.inj hv).le
  · exact (h.decreases le_rfl hi hv ha).le

theorem isGreatest (hv : arr[p]? = some v) : IsGreatest {x | x ∈ arr} v := by
  refine ⟨List.mem_of_getElem? hv, fun a ha => ?_⟩
  obtain ⟨i, hi⟩ := List.mem_iff_getElem?.1 ha
  exact h.le_peak hv hi

theorem exists_peak : ∃ v, arr[p]? = some v := ⟨_, List.getElem?_eq_getElem h.peak_lt⟩

end Bitonic

/-! ## The linear version -/

section

variable {arr : List ℤ} {p : ℕ} {v w : ℤ} {fuel : ℕ} (h : Bitonic arr p)
include h

/-- the loop follows the array to its peak, or to the last element below `n` -/
theorem linearLoop_from {n i : ℕ} (hn : n ≤ arr.length) (hi : i ≤ p) (hin : i < n) (hv : arr[i]? = some v)
    (hfuel : n - i < fuel + 1) : linearLoop arr n (fuel + 1) ((i : ℤ) + 1) v = arr[min p (n - 1)]? := by
  induction fuel generalizing i v with
  | zero => omega
  | succ fuel ih =>
    rw [linearLoop]
    by_cases hend : i + 1 < n
    · obtain ⟨a, ha⟩ : ∃ a, arr[i + 1]? = some a := ⟨_, List.getElem?_eq_getElem (by omega)⟩
      rw [if_pos (by omega), add_sub_cancel_right, charAt_natCast, ← Nat.cast_succ, charAt_natCast, ha, hv]
      simp only [Option.bind_eq_bind, Option.bind_some, h.ascends_iff ha hv]
      by_cases hpeak : i + 1 ≤ p
      · rw [if_pos hpeak, ih hpeak hend ha (by omega)]
      · have hlast : min p (n - 1) = i := by omega
        rw [if_neg hpeak, hlast, hv]
    · have hlast : min p (n - 1) = i := by omega
      rw [if_neg (by omega), hlast, hv]

theorem findMaximumLinear_eq (hpos : 0 < int arr.length) :
    findMaximumLinear arr = arr[min p ((int arr.length).toNat - 1)]? := by
  have hle := int_le_natCast arr.length
  obtain ⟨n, hn⟩ := Int.eq_ofNat_of_zero_le hpos.le
  obtain ⟨v, hv⟩ : ∃ v, arr[0]? = some v := ⟨_, List.getElem?_eq_getElem (Nat.zero_lt_of_lt h.peak_lt)⟩
  have hread : charAt arr 0 = some v := hv
  rw [findMaximumLinear, hread, Option.bind_eq_bind, Option.bind_some, hn, Int.toNat_natCast]
  exact linearLoop_from h (by omega) (Nat.zero_le p) (by omega) hv (by omega)

omit h in
/-- a size that is cut to a negative `int`: the loop does not begin -/
theorem findMaximumLinear_cut (hneg : int arr.length ≤ 0) : findMaximumLinear arr = charAt arr 0 := by
  rw [findMaximumLinear]
  cases charAt arr 0 with
  | none => rfl
  | some v =>
    rw [Option.bind_eq_bind, Option.bind_some, linearLoop, if_neg (by omega)]

/-! ## The binary search -/

omit h in
/-- the middle is the first element -/
theorem findLoop_outside {l r : ℕ} (hlr : l ≤ r) (hmid : l + (r - l) / 2 = 0) : findLoop arr fuel l r = none := by
  cases fuel with
  | zero => rfl
  | succ fuel =>
    have hzero : (l : ℤ) + ((r : ℤ) - l) / 2 = 0 := by omega
    have hread : charAt arr (0 - 1) = none := rfl
    rw [findLoop, if_pos (by omega), hzero]
    dsimp only
    rw [hread]
    cases charAt arr 0 <;> rfl

/-- the middle is another one: the search goes on at the side of the peak -/
theorem findLoop_step {l r k : ℕ} (hlr : l ≤ r) (hr : r < arr.length) (hmid : l + (r - l) / 2 = k + 1) :
    findLoop arr (fuel + 1) l r =
      if k + 1 < p then findLoop arr fuel (k + 2 : ℕ) r
      else if k + 1 = p then (if p + 1 < arr.length then arr[p]? else none)
      else findLoop arr fuel l k := by
  have hcast : (l : ℤ) + ((r : ℤ) - l) / 2 = (k : ℤ) + 1 := by omega
  obtain ⟨a, ha⟩ : ∃ a, arr[k + 1]? = some a := ⟨_, List.getElem?_eq_getElem (by omega)⟩
  obtain ⟨b, hb⟩ : ∃ b, arr[k]? = some b := ⟨_, List.getElem?_eq_getElem (by omega)⟩
  have hnext : (k : ℤ) + 1 + 1 = (k + 2 : ℕ) := by omega
  rw [findLoop, if_pos (by omega), hcast]
  dsimp only
  rw [add_sub_cancel_right, hnext, charAt_natCast, charAt_natCast, hb, ← Nat.cast_succ, charAt_natCast, ha]
  simp only [Option.bind_eq_bind, Option.bind_some, h.ascends_iff ha hb]
  rcases Nat.lt_trichotomy (k + 1) p with hk | hk | hk
  · obtain ⟨c, hc⟩ : ∃ c, arr[k + 2]? = some c := ⟨_, List.getElem?_eq_getElem (by have := h.peak_lt; omega)⟩
    have hless : a < c := (h.ascends_iff hc ha).2 hk
    rw [if_pos hk.le, if_pos hk, hc, Option.bind_some, if_neg hless.not_gt]
  · subst hk
    rw [if_pos le_rfl, if_neg (lt_irrefl _), if_pos rfl, ha]
    split_ifs with hlast
    · obtain ⟨c, hc⟩ : ∃ c, arr[k + 2]? = some c := ⟨_, List.getElem?_eq_getElem hlast⟩
      rw [hc, Option.bind_some, if_pos (h.decreases le_rfl (Nat.lt_succ_self _) ha hc)]
    · rw [List.getElem?_eq_none (by omega), Option.bind_none]
  · rw [if_neg (by omega), if_neg (by omega), if_neg (by omega)]

/-- a peak that has two neighbours is found between the bounds, unless the search begins at the second place -/
theorem findLoop_found {l r : ℕ} (hlast : p + 1 < arr.length) (hl : l ≤ p) (hr : p ≤ r) (hrlen : r < arr.length)
    (hsafe : 1 ≤ l ∨ 2 ≤ p) (hfuel : r - l < fuel) : findLoop arr fuel l r = arr[p]? := by
  induction fuel generalizing l r with
  | zero => omega
  | succ fuel ih =>
    obtain ⟨k, hk⟩ : ∃ k, l + (r - l) / 2 = k + 1 := Nat.exists_eq_succ_of_ne_zero (by omega)
    rw [findLoop_step h (hl.trans hr) hrlen hk]
    rcases Nat.lt_trichotomy (k + 1) p with hp | hp | hp
    · rw [if_pos hp]
      exact ih hp hr hrlen (Or.inl (by omega)) (by omega)
    · rw [if_neg hp.not_lt, if_pos hp, if_pos hlast]
    · rw [if_neg (by omega), if_neg (by omega)]
      exact ih hl (by omega) (by omega) hsafe (by omega)

/-- a peak at the end -/
theorem findLoop_last {l : ℕ} (hlast : p + 1 = arr.length) (hl : l ≤ p) : findLoop arr fuel l p = none := by
  induction fuel generalizing l with
  | zero => rfl
  | succ fuel ih =>
    rcases Nat.eq_zero_or_pos (l + (p - l) / 2) with hzero | hpos
    · exact findLoop_outside hl hzero
    · obtain ⟨k, hk⟩ := Nat.exists_eq_succ_of_ne_zero hpos.ne'
      rw [findLoop_step h hl h.peak_lt hk]
      rcases Nat.lt_or_ge (k + 1) p with hp | hp
      · rw [if_pos hp]
        exact ih hp
      · rw [if_neg hp.not_gt, if_pos (by omega), if_neg hlast.not_lt]

end

section

variable {arr : List ℤ} {fuel r : ℕ}

/-- a peak at the beginning -/
theorem findLoop_first (h : Bitonic arr 0) (hr : r < arr.length) : findLoop arr fuel 0 r = none := by
  induction fuel generalizing r with
  | zero => rfl
  | succ fuel ih =>
    rcases Nat.eq_zero_or_pos (0 + (r - 0) / 2) with hzero | hpos
    · exact findLoop_outside (Nat.zero_le r) hzero
    · obtain ⟨k, hk⟩ := Nat.exists_eq_succ_of_ne_zero hpos.ne'
      have hstep : findLoop arr (fuel + 1) 0 r = _ := findLoop_step h (Nat.zero_le r) hr hk
      rw [if_neg (by omega), if_neg (by omega)] at hstep
      exact hstep.trans (ih (by omega))

/-- the second binary digit of `s` is zero -/
def SecondZero (s : ℕ) : Prop := ∃ k, 2 ^ (k + 1) ≤ s ∧ s < 3 * 2 ^ k

theorem secondZero_half {s : ℕ} (hs : 6 ≤ s) : SecondZero (s / 2) ↔ SecondZero s := by
  constructor
  · rintro ⟨k, hlow, hhigh⟩
    refine ⟨k + 1, ?_, ?_⟩
    · rw [pow_succ]
      omega
    · rw [pow_succ]
      omega
  · rintro ⟨k, hlow, hhigh⟩
    cases k with
    | zero => omega
    | succ k =>
      rw [pow_succ] at hlow hhigh
      exact ⟨k, by omega, by omega⟩

/-- a peak at the second place: the bound is halved until the middle is one of the first two -/
theorem findLoop_second (h : Bitonic arr 1) (hlast : 2 < arr.length) (hpos : 1 ≤ r) (hr : r < arr.length) (hfuel : r < fuel) :
    (SecondZero (r + 2) → findLoop arr fuel 0 r = arr[1]?) ∧ (¬ SecondZero (r + 2) → findLoop arr fuel 0 r = none) := by
  induction fuel generalizing r with
  | zero => omega
  | succ fuel ih =>
    rcases Nat.lt_or_ge r 2 with hone | htwo
    · obtain rfl : r = 1 := by omega
      refine ⟨?_, fun _ => findLoop_outside (Nat.zero_le 1) rfl⟩
      rintro ⟨k, hlow, hhigh⟩
      cases k with
      | zero => omega
      | succ k =>
        have := Nat.two_pow_pos k
        rw [pow_succ, pow_succ] at hlow
        omega
    · obtain ⟨k, hk⟩ : ∃ k, 0 + (r - 0) / 2 = k + 1 := Nat.exists_eq_succ_of_ne_zero (by omega)
      have hstep : findLoop arr (fuel + 1) 0 r = _ := findLoop_step h (Nat.zero_le r) hr hk
      rw [if_neg (by omega)] at hstep
      rcases Nat.eq_zero_or_pos k with rfl | hk'
      · have hzero : SecondZero (r + 2) := ⟨1, by omega, by omega⟩
        rw [if_pos rfl, if_pos hlast] at hstep
        exact ⟨fun _ => hstep, fun hnot => absurd hzero hnot⟩
      · have hhalf : (r + 2) / 2 = k + 2 := by omega
        rw [← secondZero_half (by omega), hhalf]
        rw [if_neg (by omega)] at hstep
        have hnext := ih hk' (by omega) (by omega)
        exact ⟨fun hs => hstep.trans (hnext.1 hs), fun hs => hstep.trans (hnext.2 hs)⟩

end

/-! ## Both versions -/

/-- The peak has two neighbours and its index is below the size, as an `int`; if it is at the second place, the second binary
digit of the next `int` is zero. -/
def Found (n p : ℕ) : Prop :=
  1 ≤ p ∧ p + 1 < n ∧ (p : ℤ) < int n ∧ (p = 1 → SecondZero ((int n).toNat + 1))

section

variable {arr : List ℤ} {p : ℕ} {v : ℤ} (h : Bitonic arr p)
include h

omit h in
/-- the search begins with all indices below the size -/
theorem findMaximum_eq (hpos : 0 < int arr.length) :
    ∃ m : ℕ, int arr.length = (m + 1 : ℕ) ∧ m < arr.length ∧ findMaximum arr = findLoop arr (arr.length + 1) 0 (m : ℕ) := by
  have hle := int_le_natCast arr.length
  have hlt := int_lt arr.length
  obtain ⟨m, hm⟩ : ∃ m : ℕ, int arr.length = (m + 1 : ℕ) := ⟨(int arr.length).toNat - 1, by omega⟩
  have hlast : signed (int arr.length - 1) = some (m : ℤ) := by
    rw [hm, Nat.cast_succ, add_sub_cancel_right]
    exact signed_of_small (by omega) (by omega)
  refine ⟨m, hm, by omega, ?_⟩
  rw [findMaximum, hlast, Option.bind_eq_bind, Option.bind_some]

/-- both versions return the peak -/
theorem findMaximum_found (hfound : Found arr.length p) :
    findMaximum arr = arr[p]? ∧ findMaximumLinear arr = arr[p]? := by
  obtain ⟨hpos, hlast, hsize, hsecond⟩ := hfound
  obtain ⟨m, hm, hmlen, hsearch⟩ := findMaximum_eq (show 0 < int arr.length by omega)
  have hlinear := findMaximumLinear_eq h (by omega)
  rw [hm, Int.toNat_natCast, Nat.add_sub_cancel, min_eq_left (by omega)] at hlinear
  refine ⟨?_, hlinear⟩
  rw [hsearch]
  rcases hpos.eq_or_lt with rfl | htwo
  · have hzero := hsecond rfl
    rw [hm, Int.toNat_natCast] at hzero
    exact (findLoop_second h hlast (by omega) (by omega) (by omega)).1 hzero
  · exact findLoop_found h hlast (Nat.zero_le p) (by omega) (by omega) (Or.inr htwo) (by omega)

/-- the linear version only returns the peak if its index is below the size -/
theorem lt_of_findMaximumLinear (hpos : 0 < int arr.length) (hv : arr[p]? = some v) (hlinear : findMaximumLinear arr = some v) :
    (p : ℤ) < int arr.length := by
  by_contra hge
  rw [findMaximumLinear_eq h hpos, min_eq_right (by omega)] at hlinear
  exact lt_irrefl v (h.increases (by omega) le_rfl hlinear hv)

/-- the binary search only returns the peak if it has two neighbours -/
theorem found_of_findMaximum (hsize : (p : ℤ) < int arr.length) (hmax : findMaximum arr = some v) : Found arr.length p := by
  obtain ⟨m, hm, hmlen, hsearch⟩ := findMaximum_eq (show 0 < int arr.length by omega)
  rw [hsearch] at hmax
  have hpos : 1 ≤ p := by
    by_contra hzero
    obtain rfl : p = 0 := by omega
    rw [findLoop_first h (by omega)] at hmax
    cases hmax
  have hlast : p + 1 < arr.length := by
    by_contra hend
    have hp := h.peak_lt
    obtain rfl : m = p := by omega
    have hnone : findLoop arr (arr.length + 1) 0 m = none := findLoop_last h (by omega) (Nat.zero_le m)
    rw [hnone] at hmax
    cases hmax
  refine ⟨hpos, hlast, hsize, ?_⟩
  rintro rfl
  rw [hm, Int.toNat_natCast]
  by_contra hone
  rw [(findLoop_second h hlast (by omega) (by omega) (by omega)).2 hone] at hmax
  cases hmax

end

/-- `int`s that decrease from the beginning -/
theorem length_le_of_decreases {arr : List ℤ} {v : ℤ} (h : Bitonic arr 0) (hint : ∀ x ∈ arr, -2 ^ 31 ≤ x) (hv : arr[0]? = some v) :
    (arr.length : ℤ) ≤ v + 2 ^ 31 + 1 := by
  have hfall : ∀ (i : ℕ) (a : ℤ), arr[i]? = some a → a ≤ v - i := by
    intro i
    induction i with
    | zero =>
      intro a ha
      rw [hv] at ha
      obtain rfl := Option.some.inj ha
      simp
    | succ i ih =>
      intro a ha
      obtain ⟨b, hb⟩ : ∃ b, arr[i]? = some b := by
        obtain ⟨hi, -⟩ := List.getElem?_eq_some_iff.1 ha
        exact ⟨_, List.getElem?_eq_getElem (by omega)⟩
      have hless := h.decreases (Nat.zero_le i) (Nat.lt_succ_self i) hb ha
      have := ih b hb
      rw [Nat.cast_succ]
      omega
  have hpos := h.peak_lt
  obtain ⟨a, ha⟩ : ∃ a, arr[arr.length - 1]? = some a := ⟨_, List.getElem?_eq_getElem (by omega)⟩
  have hbound := hfall _ a ha
  have hlow := hint a (List.mem_of_getElem? ha)
  omega

/-- a size that is cut to a negative `int`: no maximum is found -/
theorem findMaximum_cut {arr : List ℤ} {p : ℕ} {v : ℤ} (h : Bitonic arr p) (hint : ∀ x ∈ arr, -2 ^ 31 ≤ x)
    (hneg : int arr.length ≤ 0) (hv : arr[p]? = some v) (hlinear : findMaximumLinear arr = some v) : findMaximum arr ≠ some v := by
  rw [findMaximumLinear_cut hneg] at hlinear
  obtain rfl : p = 0 := by
    by_contra hp
    exact lt_irrefl v (h.increases (by omega) le_rfl hlinear hv)
  intro hmax
  rw [findMaximum, Option.bind_eq_bind, Option.bind_eq_some_iff] at hmax
  obtain ⟨r, hr, hloop⟩ := hmax
  obtain ⟨hlast, hlow, -⟩ := Numeral.signed_eq_some.1 hr
  rw [findLoop, if_neg (by omega)] at hloop
  obtain rfl := Option.some.inj hloop
  have hlen := length_le_of_decreases h hint hv
  have hpos := h.peak_lt
  -- 2 ^ 31 elements decrease from -1; there is no `int` below that size, cut to an `int`
  rcases Nat.lt_or_ge arr.length (2 ^ 31) with hsmall | hbig
  · have hsize : int arr.length = arr.length := Numeral.int_of_small (by omega) (by omega)
    omega
  · have hsize : arr.length = 2 ^ 31 := by omega
    have hcut : int (2 ^ 31 : ℕ) = -2 ^ 31 := by decide
    rw [hsize, hcut] at hlow
    omega

/-- **The bitonic point.** For every array of `int`s that strictly increases up to a place and strictly decreases after it, the
binary search reads inside the array and returns the maximum, as the linear version does, exactly when the place has the
property `Found`. -/
theorem findMaximum_iff (arr : List ℤ) (p : ℕ) (h : Bitonic arr p) (hint : ∀ x ∈ arr, -2 ^ 31 ≤ x ∧ x < 2 ^ 31) :
    (∃ v, IsGreatest {x | x ∈ arr} v ∧ findMaximum arr = some v ∧ findMaximumLinear arr = some v) ↔ Found arr.length p := by
  obtain ⟨v, hv⟩ := h.exists_peak
  constructor
  · rintro ⟨w, hw, hmax, hlinear⟩
    obtain rfl := hw.unique (h.isGreatest hv)
    rcases lt_or_ge 0 (int arr.length) with hpos | hneg
    · exact found_of_findMaximum h (lt_of_findMaximumLinear h hpos hv hlinear) hmax
    · exact absurd hmax (findMaximum_cut h (fun x hx => (hint x hx).1) hneg hv hlinear)
  · intro hfound
    obtain ⟨hmax, hlinear⟩ := findMaximum_found h hfound
    exact ⟨v, h.isGreatest hv, hmax.trans hv, hlinear.trans hv⟩

theorem findMaximum_iff_main :
    (Bitonic [1, 2, 4, 5, 7, 8, 3] 5 ∧ ∀ x ∈ ([1, 2, 4, 5, 7, 8, 3] : List ℤ), -2 ^ 31 ≤ x ∧ x < 2 ^ 31) ∧
      ((∃ v, IsGreatest {x | x ∈ ([1, 2, 4, 5, 7, 8, 3] : List ℤ)} v ∧ findMaximum [1, 2, 4, 5, 7, 8, 3] = some v ∧
        findMaximumLinear [1, 2, 4, 5, 7, 8, 3] = some v) ↔ Found 7 5) ∧
      findMaximum [1, 2, 4, 5, 7, 8, 3] = some 8 :=
  ⟨⟨⟨by decide, by decide, by decide⟩, by decide⟩,
    findMaximum_iff [1, 2, 4, 5, 7, 8, 3] 5 ⟨by decide, by decide, by decide⟩ (by decide), by decide⟩

/-- **Peaks that are lost.** The array increases to its end, or decreases from its beginning, as in the other two examples of the
source; or its peak is the second of five elements. The linear version returns the maximum and the binary search reads outside. -/
theorem ends_lost :
    (Bitonic [10, 20, 30, 40, 50] 4 ∧ findMaximum [10, 20, 30, 40, 50] = none ∧ findMaximumLinear [10, 20, 30, 40, 50] = some 50) ∧
      (Bitonic [120, 100, 80, 20, 0] 0 ∧ findMaximum [120, 100, 80, 20, 0] = none ∧
        findMaximumLinear [120, 100, 80, 20, 0] = some 120) ∧
      (Bitonic [10, 50, 40, 30, 20] 1 ∧ findMaximum [10, 50, 40, 30, 20] = none ∧
        findMaximumLinear [10, 50, 40, 30, 20] = some 50) :=
  ⟨⟨⟨by decide, by decide, by decide⟩, by decide, by decide⟩, ⟨⟨by decide, by decide, by decide⟩, by decide, by decide⟩,
    ⟨by decide, by decide, by decide⟩, by decide, by decide⟩

end InterviewPrep.Arista.BitonicPoint
