/-
The next number with the same digits: arista/nextGreaterElement.cpp.

`nextPermutation` works on a string and `nextGreaterElement` on an `int`. Indices are `int`s, which a length is cut to; an index
outside the string, an exception and a loop that does not end are `none`. What is printed on the way is left out, apart from the
character that is read for it.

Both look for the last place where the digits ascend, exchange its digit with the last one that is greater, and turn around what
follows: `Arrangement.Pivot` and `Arrangement.next`.
- `nextPermutation_least`: the result for all strings of digits that are not longer than 2 ^ 31, and `length_cut` what happens
  to longer ones;
- `descend_eq`: the pivot of `nextGreaterElement` is found by the same comparisons, one index lower;
- `nextGreaterElement_eq`: the two functions agree, apart from numbers that do not fit into an `int`.
-/
import Mathlib.Data.List.TakeWhile
import InterviewPrep.Core.Arrangement
import InterviewPrep.Core.Text

namespace InterviewPrep.Arista.NextGreater

open Numeral (int int_of_small)
open Arrangement (Pivot next greater)
open Text (Chars charAt charAt_natCast charAt_pred number)

/-! ## Model -/

/-- `swap(s[i], s[j])` -/
def swap (s : Chars) (i j : ℤ) : Option Chars := do
  let a ← charAt s i
  let b ← charAt s j
  some ((s.set i.toNat b).set j.toNat a)

/-- `reverse(s.begin() + i, s.end())` -/
def reverseFrom (s : Chars) (i : ℤ) : Option Chars :=
  if 0 ≤ i ∧ i ≤ s.length then some (s.take i.toNat ++ (s.drop i.toNat).reverse) else none

def notPossible : Chars := "Not Possible".toList

/-- `for (...; i > 0; i--)` -/
def pivotLoop (N : Chars) : ℕ → ℤ → Option ℤ
  | 0, _ => none
  | fuel + 1, i =>
    if i > 0 then do
      let a ← charAt N i
      let b ← charAt N (i - 1)
      if a > b then some i else pivotLoop N fuel (i - 1)
    else some i

/-- `for (...; j >= i; j--)` -/
def swapLoop (N : Chars) (i : ℤ) : ℕ → ℤ → Option Chars
  | 0, _ => none
  | fuel + 1, j =>
    if j ≥ i then do
      let a ← charAt N (i - 1)
      let b ← charAt N j
      if a < b then swap N (i - 1) j else swapLoop N i fuel (j - 1)
    else some N

def nextPermutation (N : Chars) : Option Chars :=
  if N.length = 1 then some notPossible
  else do
    let i ← pivotLoop N (N.length + 1) (int (N.length - 1))
    let _ ← charAt N i
    if i = 0 then some notPossible
    else do
      let N' ← swapLoop N i (N.length + 1) (int (N.length - 1))
      reverseFrom N' i

/-- `to_string` -/
def intToString (n : ℤ) : Chars :=
  if n < 0 then '-' :: Nat.toDigits 10 n.natAbs else Nat.toDigits 10 n.natAbs

def isspace (c : Char) : Bool := c = ' ' || (9 ≤ c.toNat && c.toNat ≤ 13)

/-- spaces and a sign are read first, and what follows the digits is not; `none` for the exceptions -/
def stol (s : Chars) : Option ℤ :=
  let s := s.dropWhile isspace
  let minus := s.head? = some '-'
  let s := if minus ∨ s.head? = some '+' then s.tail else s
  let ds := s.takeWhile Char.isDigit
  let value : ℤ := if minus then -number ds else number ds
  if ds ≠ [] ∧ -2 ^ 63 ≤ value ∧ value < 2 ^ 63 then some value else none

/-- `while (pivotIndex >= 0 && digits[pivotIndex] >= digits[pivotIndex + 1])` -/
def descend (digits : Chars) : ℕ → ℤ → Option ℤ
  | 0, _ => none
  | fuel + 1, pivotIndex =>
    if pivotIndex ≥ 0 then do
      let a ← charAt digits pivotIndex
      let b ← charAt digits (pivotIndex + 1)
      if a ≥ b then descend digits fuel (pivotIndex - 1) else some pivotIndex
    else some pivotIndex

/-- `while (digits[pivotIndex] >= digits[swapIndex])` -/
def partner (digits : Chars) (pivotIndex : ℤ) : ℕ → ℤ → Option ℤ
  | 0, _ => none
  | fuel + 1, swapIndex => do
    let a ← charAt digits pivotIndex
    let b ← charAt digits swapIndex
    if a ≥ b then partner digits pivotIndex fuel (swapIndex - 1) else some swapIndex

def nextGreaterElement (n : ℤ) : Option ℤ := do
  let digits := intToString n
  let length := int digits.length
  let pivotIndex ← descend digits (digits.length + 1) (length - 2)
  if pivotIndex < 0 then some (-1)
  else do
    let swapIndex ← partner digits pivotIndex (digits.length + 1) (length - 1)
    let digits ← swap digits pivotIndex swapIndex
    let digits ← reverseFrom digits (pivotIndex + 1)
    let result ← stol digits
    some (int (if result > 2 ^ 31 - 1 then -1 else result))

/-! ## Indices -/

variable {s p u v : Chars} {x y c : Char} {i j k : ℕ} {fuel : ℕ}

/-- the loop goes on while the string descends -/
theorem pivotLoop_descends (d : ℕ) (hd : ∀ j < d, ∃ a b, s[i + j + 1]? = some a ∧ s[i + j]? = some b ∧ a ≤ b) :
    pivotLoop s (fuel + d) ((i + d : ℕ) : ℤ) = pivotLoop s fuel i := by
  induction d with
  | zero => rfl
  | succ d ih =>
    obtain ⟨a, b, ha, hb, hab⟩ := hd d (Nat.lt_succ_self d)
    rw [← ih fun j hj => hd j (by omega), ← add_assoc, ← add_assoc, pivotLoop, if_pos (by omega), charAt_natCast,
      charAt_pred, ha, hb]
    simp only [Option.bind_eq_bind, Option.bind_some, gt_iff_lt, hab.not_gt, if_false]
    rw [Nat.cast_succ, add_sub_cancel_right]

/-- the pivot of `nextGreaterElement` is one index before that of `nextPermutation` -/
theorem descend_eq (s : Chars) (fuel : ℕ) (i : ℤ) : descend s fuel (i - 1) = (pivotLoop s fuel i).map (· - 1) := by
  induction fuel generalizing i with
  | zero => rfl
  | succ fuel ih =>
    rw [descend, pivotLoop]
    by_cases hi : i > 0
    · rw [if_pos (show i - 1 ≥ 0 by omega), if_pos hi, sub_add_cancel]
      cases charAt s i with
      | none => cases charAt s (i - 1) <;> rfl
      | some a =>
        cases charAt s (i - 1) with
        | none => rfl
        | some b =>
          simp only [Option.bind_eq_bind, Option.bind_some]
          rcases le_or_gt a b with hab | hab
          · rw [if_pos hab, if_neg hab.not_gt, ih]
          · rw [if_neg hab.not_ge, if_pos hab, Option.map_some]
    · rw [if_neg (show ¬ i - 1 ≥ 0 by omega), if_neg hi, Option.map_some]

/-- the loop stops where it ascends -/
theorem pivotLoop_stops {a b : Char} (ha : s[i + 1]? = some a) (hb : s[i]? = some b) (hab : b < a) :
    pivotLoop s (fuel + 1) ((i + 1 : ℕ) : ℤ) = some ((i + 1 : ℕ) : ℤ) := by
  rw [pivotLoop, if_pos (by omega), charAt_natCast, charAt_pred, ha, hb]
  exact if_pos hab

/-- a list that descends, at neighbouring indices -/
theorem descends_at (hs : s.Pairwise (· ≥ ·)) (hj : j + 1 < s.length) :
    ∃ a b, s[j + 1]? = some a ∧ s[j]? = some b ∧ a ≤ b := by
  refine ⟨s[j + 1], s[j], List.getElem?_eq_getElem hj, List.getElem?_eq_getElem (by omega), ?_⟩
  exact List.pairwise_iff_getElem.1 hs j (j + 1) (by omega) hj (Nat.lt_succ_self j)

/-- a string that descends has no pivot -/
theorem pivotLoop_zero (hs : s.Pairwise (· ≥ ·)) (hne : s ≠ []) :
    pivotLoop s (s.length + 1) ((s.length : ℤ) - 1) = some 0 := by
  have hpos := List.length_pos_iff.2 hne
  have hrun : pivotLoop s (2 + (s.length - 1)) ((0 + (s.length - 1) : ℕ) : ℤ) = pivotLoop s 2 (0 : ℕ) :=
    pivotLoop_descends (s.length - 1) fun j hj => by
      rw [Nat.zero_add]
      exact descends_at hs (by omega)
  rw [show s.length + 1 = 2 + (s.length - 1) by omega, show (s.length : ℤ) - 1 = ((0 + (s.length - 1) : ℕ) : ℤ) by omega, hrun]
  rfl

theorem getElem?_pivot (p : Chars) (x : Char) (s : Chars) : (p ++ x :: s)[p.length]? = some x := by
  rw [List.getElem?_append_right le_rfl, Nat.sub_self, List.getElem?_cons_zero]

theorem getElem?_after (p : Chars) (x : Char) (s : Chars) (j : ℕ) : (p ++ x :: s)[p.length + 1 + j]? = s[j]? := by
  rw [List.getElem?_append_right (by omega), show p.length + 1 + j - p.length = j + 1 by omega, List.getElem?_cons_succ]

section Found

/-- the index of the digit that is exchanged -/
def partnerIndex (p u : Chars) : ℕ := p.length + 1 + u.length

theorem getElem?_partner : (p ++ x :: (u ++ y :: v))[partnerIndex p u]? = some y := by
  rw [partnerIndex, getElem?_after, getElem?_pivot]

theorem getElem?_rest (j : ℕ) : (p ++ x :: (u ++ y :: v))[partnerIndex p u + (j + 1)]? = v[j]? := by
  rw [partnerIndex, add_assoc, getElem?_after, add_comm j, ← add_assoc, getElem?_after]

variable (h : Pivot x u y v) (hs : s = p ++ x :: (u ++ y :: v))
include hs

theorem length_found : s.length = p.length + 1 + u.length + 1 + v.length := by
  rw [hs]
  simp only [List.length_append, List.length_cons]
  omega

theorem swap_found : swap s p.length (partnerIndex p u) = some (p ++ y :: (u ++ x :: v)) := by
  have hx : s[p.length]? = some x := by rw [hs, getElem?_pivot]
  have hy : s[partnerIndex p u]? = some y := by rw [hs, getElem?_partner]
  rw [swap, charAt_natCast, charAt_natCast, hx, hy]
  simp only [Option.bind_eq_bind, Option.bind_some, Int.toNat_natCast]
  rw [hs, List.set_append_right _ _ le_rfl, Nat.sub_self, List.set_cons_zero, partnerIndex,
    List.set_append_right _ _ (by omega), show p.length + 1 + u.length - p.length = u.length + 1 by omega, List.set_cons_succ,
    List.set_append_right _ _ le_rfl, Nat.sub_self, List.set_cons_zero]

include h

theorem pivotLoop_found : pivotLoop s (s.length + 1) ((s.length : ℤ) - 1) = some ((p.length + 1 : ℕ) : ℤ) := by
  have hlen := length_found hs
  have hrun : pivotLoop s (p.length + 3 + (u.length + v.length)) ((p.length + 1 + (u.length + v.length) : ℕ) : ℤ) =
      pivotLoop s (p.length + 3) ((p.length + 1 : ℕ) : ℤ) := by
    refine pivotLoop_descends _ fun j hj => ?_
    rw [hs, add_assoc _ j, getElem?_after, getElem?_after]
    refine descends_at h.descending ?_
    rw [List.length_append, List.length_cons]
    omega
  obtain ⟨a, ha, hya⟩ : ∃ a, s[p.length + 1]? = some a ∧ y ≤ a := by
    have hfirst := getElem?_after p x (u ++ y :: v) 0
    rw [← hs, Nat.add_zero] at hfirst
    rw [hfirst]
    cases u with
    | nil => exact ⟨y, rfl, le_rfl⟩
    | cons b u =>
      refine ⟨b, rfl, (List.pairwise_cons.1 h.descending).1 y ?_⟩
      exact List.mem_append_right u List.mem_cons_self
  have hx : s[p.length]? = some x := by rw [hs, getElem?_pivot]
  rw [show s.length + 1 = p.length + 3 + (u.length + v.length) by omega,
    show (s.length : ℤ) - 1 = ((p.length + 1 + (u.length + v.length) : ℕ) : ℤ) by omega, hrun]
  exact pivotLoop_stops ha hx (h.less.trans_le hya)

/-- the digits after the partner are not greater than the pivot -/
theorem partner_skips (d : ℕ) (hd : d ≤ v.length) :
    partner s p.length (fuel + d) ((partnerIndex p u + d : ℕ) : ℤ) = partner s p.length fuel (partnerIndex p u) := by
  induction d with
  | zero => rfl
  | succ d ih =>
    have hx : s[p.length]? = some x := by rw [hs, getElem?_pivot]
    have hz : s[partnerIndex p u + (d + 1)]? = some v[d] := by
      rw [hs, getElem?_rest, List.getElem?_eq_getElem hd]
    rw [← ih (by omega), ← add_assoc, partner, charAt_natCast, charAt_natCast, hx, hz]
    simp only [Option.bind_eq_bind, Option.bind_some]
    rw [if_pos (h.rest _ (List.getElem_mem hd)), show ((partnerIndex p u + (d + 1) : ℕ) : ℤ) - 1 =
      ((partnerIndex p u + d : ℕ) : ℤ) by omega]

theorem partner_found : partner s p.length (s.length + 1) ((s.length : ℤ) - 1) = some (partnerIndex p u : ℤ) := by
  have hlen := length_found hs
  have hx : s[p.length]? = some x := by rw [hs, getElem?_pivot]
  have hy : s[partnerIndex p u]? = some y := by rw [hs, getElem?_partner]
  rw [show s.length + 1 = p.length + u.length + 3 + v.length by omega,
    show (s.length : ℤ) - 1 = ((partnerIndex p u + v.length : ℕ) : ℤ) by unfold partnerIndex; omega,
    partner_skips h hs v.length le_rfl, partner, charAt_natCast, charAt_natCast, hx, hy]
  exact if_neg h.less.not_ge

end Found

theorem reverseFrom_found (p : Chars) (x : Char) (u : Chars) (y : Char) (v : Chars) :
    reverseFrom (p ++ y :: (u ++ x :: v)) ((p.length + 1 : ℕ) : ℤ) = some (next p x u y v) := by
  have hbound : (0 : ℤ) ≤ (p.length + 1 : ℕ) ∧ ((p.length + 1 : ℕ) : ℤ) ≤ (p ++ y :: (u ++ x :: v)).length := by
    simp only [List.length_append, List.length_cons]
    omega
  have hsplit : (p ++ [y]).length = p.length + 1 := List.length_append
  rw [reverseFrom, if_pos hbound, Int.toNat_natCast, List.append_cons p y, ← hsplit, List.take_left, List.drop_left, next,
    List.append_cons p y (u ++ x :: v).reverse]

theorem partner_le {q : ℕ} {j k : ℤ} (hj : partner s q fuel j = some k) : k ≤ j := by
  induction fuel generalizing j with
  | zero => cases hj
  | succ fuel ih =>
    rw [partner] at hj
    obtain ⟨a, -, hj⟩ := Option.bind_eq_some_iff.1 hj
    obtain ⟨b, -, hj⟩ := Option.bind_eq_some_iff.1 hj
    split_ifs at hj
    · have := ih hj
      omega
    · exact (Option.some.inj hj).ge

/-- the loop of `nextPermutation` exchanges the same digits -/
theorem swapLoop_eq {q : ℕ} {j k : ℤ} (hk : (q : ℤ) < k) (hj : partner s q fuel j = some k) :
    swapLoop s ((q + 1 : ℕ) : ℤ) fuel j = swap s q k := by
  induction fuel generalizing j with
  | zero => cases hj
  | succ fuel ih =>
    have hle := partner_le hj
    rw [partner] at hj
    obtain ⟨a, ha, hj⟩ := Option.bind_eq_some_iff.1 hj
    obtain ⟨b, hb, hj⟩ := Option.bind_eq_some_iff.1 hj
    rw [swapLoop, if_pos (by omega), charAt_pred, ← charAt_natCast, ha, hb]
    simp only [Option.bind_eq_bind, Option.bind_some]
    split_ifs at hj with hab
    · rw [if_neg hab.not_gt, ih hj]
    · obtain rfl := Option.some.inj hj
      rw [if_pos (not_le.1 hab), Nat.cast_succ, add_sub_cancel_right]

/-! ## Results -/

theorem isDigit_ne_notPossible (hs : ∀ c ∈ s, c.isDigit) : s ≠ notPossible := by
  rintro rfl
  exact absurd (hs 'N' (by decide)) (by decide)

theorem nextPermutation_found (h : Pivot x u y v) (hs : s = p ++ x :: (u ++ y :: v)) (hlen : s.length ≤ 2 ^ 31) :
    nextPermutation s = some (next p x u y v) := by
  have hcount := length_found hs
  have hint : int ((s.length : ℤ) - 1) = (s.length : ℤ) - 1 := int_of_small (by omega) (by omega)
  have hread : charAt s ((p.length + 1 : ℕ) : ℤ) = some s[p.length + 1] := by
    rw [charAt_natCast, List.getElem?_eq_getElem]
  have hpartner : (p.length : ℤ) < partnerIndex p u := by
    unfold partnerIndex
    omega
  rw [nextPermutation, if_neg (by omega), hint, pivotLoop_found h hs]
  simp only [Option.bind_eq_bind, Option.bind_some, hread]
  rw [if_neg (by omega), swapLoop_eq hpartner (partner_found h hs), swap_found hs, Option.bind_some, reverseFrom_found]

theorem nextPermutation_descending (hs : s.Pairwise (· ≥ ·)) (hne : s ≠ []) (hlen : s.length ≤ 2 ^ 31) :
    nextPermutation s = some notPossible := by
  have hpos := List.length_pos_iff.2 hne
  have hint : int ((s.length : ℤ) - 1) = (s.length : ℤ) - 1 := int_of_small (by omega) (by omega)
  have hread : charAt s 0 = some s[0] := by
    rw [← Nat.cast_zero, charAt_natCast, List.getElem?_eq_getElem]
  rw [nextPermutation]
  split_ifs
  · rfl
  · rw [hint, pivotLoop_zero hs hne]
    simp only [Option.bind_eq_bind, Option.bind_some, hread, if_true]

/-- **The next permutation.** For every string of 1 to 2 ^ 31 digits, `nextPermutation` returns the least of the rearrangements
that are greater, and "Not Possible" exactly when there is none. -/
theorem nextPermutation_least (N : Chars) (hne : N ≠ []) (hdigits : ∀ c ∈ N, c.isDigit) (hlen : N.length ≤ 2 ^ 31) :
    ∃ r, nextPermutation N = some r ∧ (r = notPossible ↔ greater N = ∅) ∧ (r ≠ notPossible → IsLeast (greater N) r) := by
  rcases Arrangement.exists_pivot N with hdesc | ⟨p, x, u, y, v, hN, h⟩
  · refine ⟨notPossible, nextPermutation_descending hdesc hne hlen, ?_, fun hr => absurd rfl hr⟩
    exact iff_of_true rfl (Arrangement.greater_descending hdesc)
  · have hleast : IsLeast (greater N) (next p x u y v) := hN ▸ h.isLeast_next p
    have hdigit : next p x u y v ≠ notPossible :=
      isDigit_ne_notPossible fun c hc => hdigits c (hleast.1.1.subset hc)
    refine ⟨_, nextPermutation_found h hN hlen, ?_, fun _ => hleast⟩
    exact iff_of_false hdigit (Set.nonempty_iff_ne_empty.1 ⟨_, hleast.1⟩)

theorem nextPermutation_least_main :
    (∀ c ∈ "218765".toList, c.isDigit) ∧ nextPermutation "218765".toList = some "251678".toList ∧
      IsLeast (greater "218765".toList) "251678".toList := by
  have hdigits : ∀ c ∈ "218765".toList, c.isDigit := List.all_eq_true.1 rfl
  have hres : nextPermutation "218765".toList = some "251678".toList := by decide
  obtain ⟨r, hr, -, hleast⟩ := nextPermutation_least "218765".toList (by decide) hdigits (by decide)
  obtain rfl := Option.some.inj (hres.symm.trans hr)
  exact ⟨hdigits, hres, hleast (by decide)⟩

/-- zeros and a one at the end -/
def zerosOne (n : ℕ) : Chars := List.replicate n '0' ++ ['0', '1']

/-- the index of the last character does not fit into an `int` -/
theorem nextPermutation_cut (hlen : s.length = 2 ^ 31 + 1) : nextPermutation s = none := by
  have hint : int ((s.length : ℤ) - 1) = -2 ^ 31 := by
    rw [hlen]
    decide
  have hloop : pivotLoop s (s.length + 1) (-2 ^ 31) = some (-2 ^ 31) := if_neg (by decide)
  have hread : charAt s (-2 ^ 31) = none := if_neg (by decide)
  rw [nextPermutation, if_neg (by omega), hint, hloop]
  simp only [Option.bind_eq_bind, Option.bind_some, hread, Option.bind_none]

theorem greater_zerosOne (n : ℕ) : List.replicate n '0' ++ ['1', '0'] ∈ greater (zerosOne n) :=
  ⟨(List.Perm.swap '0' '1' []).append_left _, List.append_left_lt (by decide)⟩

theorem zerosOne_digits (n : ℕ) : ∀ c ∈ zerosOne n, c.isDigit := by
  intro c hc
  rcases List.mem_append.1 hc with hc | hc
  · obtain rfl := List.eq_of_mem_replicate hc
    decide
  · have hall : ∀ c ∈ ['0', '1'], c.isDigit := List.all_eq_true.1 rfl
    exact hall c hc

/-- **Too long a string.** 2 ^ 31 zeros and a one have a greater rearrangement, and `nextPermutation` reads outside the string. -/
theorem length_cut :
    ∃ N : Chars, N ≠ [] ∧ (∀ c ∈ N, c.isDigit) ∧ (greater N).Nonempty ∧ nextPermutation N = none := by
  obtain ⟨n, hn⟩ : ∃ n, n + 2 = 2 ^ 31 + 1 := ⟨2 ^ 31 - 1, by norm_num⟩
  have hlen : (zerosOne n).length = 2 ^ 31 + 1 := by
    rw [← hn, zerosOne, List.length_append, List.length_replicate]
    rfl
  refine ⟨zerosOne n, ?_, zerosOne_digits n, ⟨_, greater_zerosOne n⟩, nextPermutation_cut hlen⟩
  intro hnil
  rw [hnil] at hlen
  cases hlen

/-! ## The `int` version -/

/-- a string of digits is read whole -/
theorem stol_digits (hne : s ≠ []) (hs : ∀ c ∈ s, c.isDigit) (hlen : s.length ≤ 10) : stol s = some (number s : ℤ) := by
  obtain ⟨c, t, rfl⟩ := List.exists_cons_of_ne_nil hne
  have hc := Text.digit_range (hs c List.mem_cons_self)
  have hspace : isspace c = false := by
    have hne : c ≠ ' ' := by
      rintro rfl
      exact absurd hc (by decide)
    simp only [isspace, hne, decide_false, Bool.false_or, Bool.and_eq_false_iff, decide_eq_false_iff_not]
    omega
  have hsign : c ≠ '-' ∧ c ≠ '+' := by
    constructor
    · rintro rfl
      exact absurd hc (by decide)
    · rintro rfl
      exact absurd hc (by decide)
  have hnumber : number (c :: t) < 2 ^ 63 := by
    have hpow : 10 ^ (c :: t).length ≤ 10 ^ 10 := Nat.pow_le_pow_right (by norm_num) hlen
    have := Text.number_lt hs
    omega
  have hdigits : (c :: t).takeWhile Char.isDigit = c :: t := List.takeWhile_eq_self_iff.2 hs
  unfold stol
  simp only [List.dropWhile_cons, hspace, Bool.false_eq_true, if_false, List.head?_cons, Option.some.injEq, hsign.1, hsign.2,
    or_self, hdigits]
  rw [if_pos]
  exact ⟨hne, by omega, by exact_mod_cast hnumber⟩

section Decimal

variable {n : ℤ} (hlow : 0 ≤ n) (hhigh : n < 2 ^ 31)
include hlow hhigh

omit hhigh in
theorem intToString_eq : intToString n = Nat.toDigits 10 n.natAbs := if_neg (not_lt.2 hlow)

theorem length_intToString : (intToString n).length ≤ 10 := by
  rw [intToString_eq hlow, Nat.length_toDigits_le_iff (by norm_num) (by norm_num)]
  omega

omit hhigh in
theorem intToString_digits : ∀ c ∈ intToString n, c.isDigit := by
  intro c hc
  rw [intToString_eq hlow] at hc
  exact Nat.isDigit_of_mem_toDigits (by norm_num) (by norm_num) hc

omit hhigh in
theorem intToString_ne_nil : intToString n ≠ [] := by
  rw [intToString_eq hlow]
  exact Nat.toDigits_ne_nil

/-- no digit ascends -/
theorem nextGreaterElement_descending (hs : (intToString n).Pairwise (· ≥ ·)) : nextGreaterElement n = some (-1) := by
  have hlen := length_intToString hlow hhigh
  have hint : int (intToString n).length = (intToString n).length := int_of_small (by omega) (by omega)
  have hpivot := descend_eq (intToString n) ((intToString n).length + 1) ((intToString n).length - 1)
  rw [pivotLoop_zero hs (intToString_ne_nil hlow), sub_sub, one_add_one_eq_two] at hpivot
  rw [nextGreaterElement, hint, hpivot]
  rfl

theorem nextGreaterElement_found (h : Pivot x u y v) (hs : intToString n = p ++ x :: (u ++ y :: v)) :
    nextGreaterElement n =
      some (if (number (next p x u y v) : ℤ) > 2 ^ 31 - 1 then -1 else (number (next p x u y v) : ℤ)) := by
  have hlen := length_intToString hlow hhigh
  have hint : int (intToString n).length = (intToString n).length := int_of_small (by omega) (by omega)
  have hpivot := descend_eq (intToString n) ((intToString n).length + 1) ((intToString n).length - 1)
  rw [pivotLoop_found h hs, sub_sub, one_add_one_eq_two, Option.map_some, Nat.cast_succ, add_sub_cancel_right] at hpivot
  have hperm := Arrangement.perm_next p x u y v
  rw [← hs] at hperm
  have hdigits : ∀ c ∈ next p x u y v, c.isDigit := fun c hc => intToString_digits hlow c (hperm.subset hc)
  have hne : next p x u y v ≠ [] := fun hnil => intToString_ne_nil hlow (hnil ▸ hperm).symm.eq_nil
  have hstol := stol_digits hne hdigits (hperm.length_eq.trans_le hlen)
  rw [nextGreaterElement, hint, hpivot]
  simp only [Option.bind_eq_bind, Option.bind_some]
  rw [if_neg (by omega), partner_found h hs, Option.bind_some, swap_found hs, Option.bind_some, ← Nat.cast_succ,
    reverseFrom_found, Option.bind_some, hstol, Option.bind_some]
  -- what is returned is an `int` already
  split_ifs with hbig
  · rw [int_of_small (by norm_num) (by norm_num)]
  · rw [int_of_small (by omega) (by omega)]

end Decimal

/-- **Both versions agree.** For every `int` that is not negative, `nextGreaterElement` returns the number that `nextPermutation`
finds, if there is one and it is not greater than INT_MAX, and else -1. -/
theorem nextGreaterElement_eq (n : ℤ) (hlow : 0 ≤ n) (hhigh : n < 2 ^ 31) :
    ∃ r, nextPermutation (intToString n) = some r ∧
      nextGreaterElement n = some (if r ≠ notPossible ∧ number r ≤ 2 ^ 31 - 1 then (number r : ℤ) else -1) := by
  have hlen : (intToString n).length ≤ 2 ^ 31 := (length_intToString hlow hhigh).trans (by norm_num)
  rcases Arrangement.exists_pivot (intToString n) with hdesc | ⟨p, x, u, y, v, hs, h⟩
  · refine ⟨notPossible, nextPermutation_descending hdesc (intToString_ne_nil hlow) hlen, ?_⟩
    rw [nextGreaterElement_descending hlow hhigh hdesc, if_neg fun hr => hr.1 rfl]
  · have hperm := Arrangement.perm_next p x u y v
    rw [← hs] at hperm
    have hdigits : next p x u y v ≠ notPossible :=
      isDigit_ne_notPossible fun c hc => intToString_digits hlow c (hperm.subset hc)
    refine ⟨_, nextPermutation_found h hs hlen, ?_⟩
    rw [nextGreaterElement_found hlow hhigh h hs]
    by_cases hfits : number (next p x u y v) ≤ 2 ^ 31 - 1
    · rw [if_neg (by omega), if_pos ⟨hdigits, hfits⟩]
    · rw [if_pos (by omega), if_neg fun hr => hfits hr.2]

theorem nextGreaterElement_eq_main :
    (∃ r, nextPermutation (intToString 218765) = some r ∧
      nextGreaterElement 218765 = some (if r ≠ notPossible ∧ number r ≤ 2 ^ 31 - 1 then (number r : ℤ) else -1)) ∧
      nextGreaterElement 218765 = some 251678 ∧ nextGreaterElement 1999999999 = some (-1) :=
  ⟨nextGreaterElement_eq 218765 (by norm_num) (by norm_num), by decide, by decide⟩

end InterviewPrep.Arista.NextGreater
