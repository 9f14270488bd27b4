/-
The palindromic substrings: pureStorage/countPalindromes.cpp.

`expand` puts the palindromes around one center into `result` and counts them, `countPalindromes` does so for all centers. Indices
and counts are `int`s; an index outside the string, an overflow, an exception and a loop that does not end are `none`.

- `expandLoop_found`: the loop adds the palindromes around a center, from some bounds outwards;
- `centerLoop_found`: every round adds the two centers of an index;
- `countPalindromes_found`: all palindromes are counted, and `result` has each as often as it occurs.
-/
import InterviewPrep.LongestPalindrome

namespace InterviewPrep.CountPalindromes

open Numeral (int int_of_small signed signed_of_small)
open Text (Chars charAt charAt_natCast)
open Factor (Mirrored occurrences found Outer)
open LongestPalindrome (substr substr_eq)

/-! ## Model -/

/-- `while (left >= 0 && right < n && s[left] == s[right])`, with `c` and `result` -/
def expandLoop (s : Chars) (n : ℤ) : ℕ → ℤ → ℤ → ℤ → List Chars → Option (ℤ × List Chars)
  | 0, _, _, _, _ => none
  | fuel + 1, left, right, c, result =>
    if left ≥ 0 ∧ right < n then do
      let a ← charAt s left
      let b ← charAt s right
      if a = b then do
        let distance ← signed (right - left)
        let length ← signed (distance + 1)
        let palindrome ← substr s left length
        let c ← signed (c + 1)
        let next ← signed (right + 1)
        expandLoop s n fuel (left - 1) next c (result ++ [palindrome])
      else some (c, result)
    else some (c, result)

def expand (s : Chars) (left right : ℤ) (result : List Chars) : Option (ℤ × List Chars) :=
  expandLoop s (int s.length) (s.length + 1) left right 0 result

/-- `for (int i = 0; i < n; i++)` -/
def centerLoop (s : Chars) (n : ℤ) : ℕ → ℤ → ℤ → List Chars → Option (ℤ × List Chars)
  | 0, _, _, _ => none
  | fuel + 1, i, count, result =>
    if i < n then do
      let odd ← expand s i i result
      let count ← signed (count + odd.1)
      let next ← signed (i + 1)
      let even ← expand s i next odd.2
      let count ← signed (count + even.1)
      centerLoop s n fuel next count even.2
    else some (count, result)

def countPalindromes (s : Chars) (result : List Chars) : Option (ℤ × List Chars) :=
  centerLoop s (int s.length) (s.length + 1) 0 0 result

/-! ## One center -/

variable {s : Chars} {i r c fuel : ℕ} {result : List Chars}

/-- one more palindrome, with the bounds `i` and `r` -/
theorem expandLoop_succ (hlen : s.length < 2 ^ 31) (hmem : (i, r) ∈ occurrences s) (hc : c + 1 < 2 ^ 31) :
    expandLoop s s.length (fuel + 1) i r c result =
      expandLoop s s.length fuel ((i : ℤ) - 1) (r + 1 : ℕ) (c + 1 : ℕ) (result ++ [(s.drop i).take (r + 1 - i)]) := by
  obtain ⟨hir, hpal⟩ := Factor.mem_occurrences.1 hmem
  dsimp only at hir hpal
  have hle := hpal.le
  have hdistance : (r : ℤ) - i + 1 = (r + 1 - i : ℕ) := by omega
  have hends : s[i]? = s[r]? := hpal.eq (by omega) le_rfl hir
  obtain ⟨a, ha⟩ : ∃ a, s[r]? = some a := ⟨_, List.getElem?_eq_getElem (by omega)⟩
  rw [expandLoop, if_pos (by omega), charAt_natCast, charAt_natCast, hends, ha, Option.bind_eq_bind, Option.bind_some,
    Option.bind_eq_bind, Option.bind_some, if_pos rfl, signed_of_small (by omega) (by omega), Option.bind_some, hdistance,
    signed_of_small (by omega) (by omega), Option.bind_some, substr_eq hpal (by omega), Option.bind_eq_bind,
    Option.bind_some, signed_of_small (by omega) (by omega), Option.bind_some, signed_of_small (by omega) (by omega), Option.bind_some,
    Nat.cast_succ, Nat.cast_succ]

/-- from the bounds between `i` and `r` on, everything around them is found -/
theorem expandLoop_found (result : List Chars) (hlen : s.length < 2 ^ 31) (h : Mirrored s i r) (hir : i ≤ r + 1)
    (hfuel : s.length - r < fuel) (hc : c + (found s (Outer (i + r) i)).card < 2 ^ 31) :
    ∃ added : List Chars,
      expandLoop s s.length fuel ((i : ℤ) - 1) r c result = some (((c + added.length : ℕ) : ℤ), result ++ added) ∧
      (added : Multiset Chars) = found s (Outer (i + r) i) := by
  induction fuel generalizing i r c result with
  | zero => omega
  | succ fuel ih =>
    -- nothing more is found if the loop stops here
    have hstop : (∀ a, a + 1 = i → r < s.length → s[a]? ≠ s[r]?) →
        expandLoop s s.length (fuel + 1) ((i : ℤ) - 1) r c result = some ((c : ℤ), result) →
        ∃ added : List Chars,
          expandLoop s s.length (fuel + 1) ((i : ℤ) - 1) r c result = some (((c + added.length : ℕ) : ℤ), result ++ added) ∧
          (added : Multiset Chars) = found s (Outer (i + r) i) := by
      intro hnone hloop
      refine ⟨[], ?_, (Factor.found_outer_none hir hnone).symm⟩
      rw [hloop, List.length_nil, Nat.add_zero, List.append_nil]
    cases i with
    | zero =>
      refine hstop (fun a ha => absurd ha (Nat.succ_ne_zero a)) ?_
      rw [expandLoop, if_neg (by omega)]
    | succ k =>
      by_cases hr : r < s.length
      · by_cases hends : s[k]? = s[r]?
        · have hmem := h.occurs (by omega) hr hends
          have hmore := Factor.found_outer hmem
          rw [hmore, Multiset.card_cons] at hc
          obtain ⟨added, hloop, hfound⟩ := ih (c := c + 1) (result ++ [(s.drop k).take (r + 1 - k)])
            (Factor.mirrored_of_occurs hmem) (by omega) (by omega) (by omega)
          refine ⟨(s.drop k).take (r + 1 - k) :: added, ?_, ?_⟩
          · rw [Nat.cast_succ, add_sub_cancel_right, expandLoop_succ hlen hmem (by omega), hloop, List.append_assoc,
              List.singleton_append, List.length_cons, Nat.add_right_comm, Nat.add_assoc]
          · rw [hmore, ← Multiset.cons_coe, hfound]
        · refine hstop (fun a ha _ => ?_) ?_
          · obtain rfl := Nat.succ.inj ha
            exact hends
          · obtain ⟨a, ha⟩ : ∃ a, s[k]? = some a := ⟨_, List.getElem?_eq_getElem (by omega)⟩
            obtain ⟨b, hb⟩ : ∃ b, s[r]? = some b := ⟨_, List.getElem?_eq_getElem hr⟩
            rw [Nat.cast_succ, add_sub_cancel_right, expandLoop, if_pos (by omega), charAt_natCast, charAt_natCast, ha, hb,
              Option.bind_eq_bind, Option.bind_some, Option.bind_eq_bind, Option.bind_some, if_neg]
            rintro rfl
            exact hends (ha.trans hb.symm)
      · refine hstop (fun a _ hin => absurd hin hr) ?_
        rw [expandLoop, if_neg (by omega)]

theorem expand_found (result : List Chars) (hs : (occurrences s).card < 2 ^ 31) (hir : r ≤ i + 1) (hri : i ≤ r) :
    ∃ added : List Chars, expand s i r result = some ((added.length : ℤ), result ++ added) ∧
      (added : Multiset Chars) = found s (Outer (i + 1 + r) (i + 1)) := by
  have hlen := Factor.length_le_card s
  have hcard := Factor.card_found_le s (Outer (i + 1 + r) (i + 1))
  have hfuel : s.length - r < s.length + 1 := by omega
  obtain ⟨added, hloop, hfound⟩ := expandLoop_found (c := 0) result (by omega) (Factor.mirrored_of_le hir)
    (Nat.succ_le_succ hri) hfuel (by omega)
  refine ⟨added, ?_, hfound⟩
  rw [Nat.zero_add, Nat.cast_succ, add_sub_cancel_right] at hloop
  rw [expand, int_of_small (by omega) (by omega)]
  exact hloop

/-! ## All centers -/

/-- the centers of the first `i` rounds -/
def Seen (i : ℕ) (p : ℕ × ℕ) : Prop := p.1 + p.2 + 1 ≤ 2 * i

instance (i : ℕ) : DecidablePred (Seen i) := fun _ => inferInstanceAs (Decidable (_ ≤ _))

theorem found_seen_succ (s : Chars) (i : ℕ) :
    found s (Seen (i + 1)) =
      found s (Seen i) + found s (Outer (i + 1 + i) (i + 1)) + found s (Outer (i + 1 + (i + 1)) (i + 1)) := by
  have hodd : found s (fun p => Seen i p ∨ Outer (i + 1 + i) (i + 1) p) =
      found s (Seen i) + found s (Outer (i + 1 + i) (i + 1)) := by
    refine Factor.found_add (fun p _ => Iff.rfl) fun p hseen hout => ?_
    unfold Seen at hseen
    unfold Outer at hout
    omega
  rw [← hodd]
  refine Factor.found_add (fun p hp => ?_) fun p hor hout => ?_
  · have hle := (Factor.mem_occurrences.1 hp).1
    unfold Seen Outer
    omega
  · unfold Seen Outer at hor
    unfold Outer at hout
    omega

theorem centerLoop_found (hs : (occurrences s).card < 2 ^ 31) (hi : i ≤ s.length) (hfuel : s.length - i < fuel)
    (hresult : (result : Multiset Chars) = found s (Seen i)) :
    ∃ result' : List Chars, centerLoop s s.length fuel i result.length result = some ((result'.length : ℤ), result') ∧
      (result' : Multiset Chars) = found s (Seen s.length) := by
  induction fuel generalizing i result with
  | zero => omega
  | succ fuel ih =>
    rw [centerLoop]
    rcases hi.lt_or_eq with hlt | rfl
    · have hlen := Factor.length_le_card s
      obtain ⟨odd, hodd, hoddFound⟩ := expand_found (i := i) (r := i) result hs (Nat.le_succ i) le_rfl
      obtain ⟨even, heven, hevenFound⟩ := expand_found (i := i) (r := i + 1) (result ++ odd) hs le_rfl (Nat.le_succ i)
      have hnext : ((result ++ odd ++ even : List Chars) : Multiset Chars) = found s (Seen (i + 1)) := by
        rw [found_seen_succ, ← Multiset.coe_add, ← Multiset.coe_add, hresult, hoddFound, hevenFound]
      have hcard := Factor.card_found_le s (Seen (i + 1))
      rw [← hnext, Multiset.coe_card, List.length_append, List.length_append] at hcard
      have hcount : (result.length : ℤ) + odd.length + even.length = (result ++ odd ++ even).length := by
        rw [List.length_append, List.length_append, Nat.cast_add, Nat.cast_add]
      rw [Nat.cast_succ] at heven
      rw [if_pos (by omega), hodd, Option.bind_eq_bind, Option.bind_some]
      dsimp only
      rw [signed_of_small (by omega) (by omega), Option.bind_eq_bind, Option.bind_some, signed_of_small (by omega) (by omega),
        Option.bind_some, heven, Option.bind_some]
      dsimp only
      rw [hcount, signed_of_small (by omega) (by rw [List.length_append, List.length_append]; omega), Option.bind_some,
        ← Nat.cast_succ]
      exact ih hlt (by omega) hnext
    · exact ⟨result, if_neg (lt_irrefl _), hresult⟩

/-- **All palindromes.** If their number is an `int`, a fresh `Solution` returns it, and `result` has one entry for each pair of
bounds. -/
theorem countPalindromes_found (s : Chars) (hs : (occurrences s).card < 2 ^ 31) :
    ∃ result : List Chars, countPalindromes s [] = some (((occurrences s).card : ℤ), result) ∧
      (result : Multiset Chars) = (occurrences s).val.map fun p => (s.drop p.1).take (p.2 + 1 - p.1) := by
  have hlen := Factor.length_le_card s
  have hnone : (([] : List Chars) : Multiset Chars) = found s (Seen 0) :=
    (Factor.found_none fun p _ hseen => by unfold Seen at hseen; omega).symm
  have hall : found s (Seen s.length) = (occurrences s).val.map fun p => (s.drop p.1).take (p.2 + 1 - p.1) := by
    refine congrArg (fun t : Finset (ℕ × ℕ) => t.val.map _) (Finset.filter_true_of_mem fun p hp => ?_)
    obtain ⟨hle, hpal⟩ := Factor.mem_occurrences.1 hp
    have hlast := hpal.le
    unfold Seen
    omega
  obtain ⟨result, hloop, hresult⟩ := centerLoop_found hs (Nat.zero_le _) (Nat.lt_succ_self (s.length - 0)) hnone
  rw [hall] at hresult
  have hcard := congrArg Multiset.card hresult
  rw [Multiset.coe_card, Multiset.card_map] at hcard
  refine ⟨result, ?_, hresult⟩
  rw [countPalindromes, int_of_small (by omega) (by omega), Finset.card_def, ← hcard]
  exact hloop

theorem countPalindromes_nested :
    ∃ result : List Chars, countPalindromes "ababa".toList [] = some (((occurrences "ababa".toList).card : ℤ), result) ∧
      (result : Multiset Chars) =
        (occurrences "ababa".toList).val.map fun p => (("ababa".toList).drop p.1).take (p.2 + 1 - p.1) :=
  countPalindromes_found _ (by decide)

end InterviewPrep.CountPalindromes
