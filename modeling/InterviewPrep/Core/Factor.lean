/-
Palindromes among the contiguous parts of a list.

A part is given by its first index and its length. `pal_iff` compares its elements in pairs, whose indices have the same sum: the
center of the part. The palindromes with one center contain each other (`isGreatest_length`), and `Leads` is the invariant of a
search for the longest: of the parts that were seen, the first longest palindrome. `found` is for a search for all: the palindromes
with the bounds that were seen, `found_outer` what one more of a center adds; `Mirrored` is what has been compared by then.
-/
import Mathlib.Data.Finset.Prod
import Mathlib.Data.List.Palindrome
import Mathlib.Order.Bounds.Basic
import Mathlib.Tactic.Ring

namespace InterviewPrep.Factor

variable {α : Type} {s : List α} {i j k m n : ℕ}

/-- the `n` elements from index `i` on are there and form a palindrome -/
structure Pal (s : List α) (i n : ℕ) : Prop where
  le : i + n ≤ s.length
  palindrome : ((s.drop i).take n).Palindrome

/-- elements at the same distance from the ends are equal -/
theorem pal_iff : Pal s i n ↔ i + n ≤ s.length ∧ ∀ a b, a + b + 1 = 2 * i + n → i ≤ a → i ≤ b → s[a]? = s[b]? := by
  constructor
  · rintro ⟨hle, hpal⟩
    refine ⟨hle, fun a b hab ha hb => ?_⟩
    have hrev := congrArg (·[a - i]?) hpal.reverse_eq
    have hlen : ((s.drop i).take n).length = n := by
      rw [List.length_take, List.length_drop]
      omega
    have hmirror : n - 1 - (a - i) = b - i := by omega
    rw [List.getElem?_reverse (by omega), hlen, hmirror, List.getElem?_take_of_lt (by omega), List.getElem?_take_of_lt (by omega),
      List.getElem?_drop, List.getElem?_drop, Nat.add_sub_cancel' ha, Nat.add_sub_cancel' hb] at hrev
    exact hrev.symm
  · rintro ⟨hle, hpairs⟩
    have hlen : ((s.drop i).take n).length = n := by
      rw [List.length_take, List.length_drop]
      omega
    refine ⟨hle, List.Palindrome.of_reverse_eq (List.ext_getElem? fun d => ?_)⟩
    rcases Nat.lt_or_ge d n with hd | hd
    · rw [List.getElem?_reverse (by omega), hlen, List.getElem?_take_of_lt (by omega), List.getElem?_take_of_lt hd,
        List.getElem?_drop, List.getElem?_drop]
      exact hpairs _ _ (by omega) (by omega) (by omega)
    · rw [List.getElem?_eq_none (by rw [List.length_reverse]; omega), List.getElem?_eq_none (by omega)]

theorem Pal.eq (h : Pal s i n) {a b : ℕ} (hab : a + b + 1 = 2 * i + n) (ha : i ≤ a) (hb : i ≤ b) : s[a]? = s[b]? :=
  (pal_iff.1 h).2 a b hab ha hb

theorem pal_zero (hi : i ≤ s.length) : Pal s i 0 := ⟨hi, List.Palindrome.nil⟩

theorem pal_one (hi : i < s.length) : Pal s i 1 := by
  refine pal_iff.2 ⟨hi, fun a b hab ha hb => ?_⟩
  obtain ⟨rfl, rfl⟩ : a = i ∧ b = i := by omega
  rfl

/-- a palindrome, without its ends -/
theorem Pal.inner (h : Pal s i (n + 2)) : Pal s (i + 1) n := by
  have hle := h.le
  exact pal_iff.2 ⟨by omega, fun a b hab ha hb => h.eq (by omega) (by omega) (by omega)⟩

/-- equal elements at both ends -/
theorem Pal.outer (h : Pal s (i + 1) n) (hle : i + (n + 2) ≤ s.length) (hends : s[i]? = s[i + (n + 1)]?) : Pal s i (n + 2) := by
  refine pal_iff.2 ⟨hle, fun a b hab ha hb => ?_⟩
  rcases ha.eq_or_lt with rfl | ha'
  · obtain rfl : b = i + (n + 1) := by omega
    exact hends
  · rcases hb.eq_or_lt with rfl | hb'
    · obtain rfl : a = i + (n + 1) := by omega
      exact hends.symm
    · exact h.eq (by omega) ha' hb'

theorem pal_add_two (hle : i + (n + 2) ≤ s.length) : Pal s i (n + 2) ↔ s[i]? = s[i + (n + 1)]? ∧ Pal s (i + 1) n :=
  ⟨fun h => ⟨h.eq (by omega) le_rfl (by omega), h.inner⟩, fun h => h.2.outer hle h.1⟩

/-! ## One center -/

/-- the lengths of the palindromes with the center `c` -/
def lengths (s : List α) (c : ℕ) : Set ℕ := {n | ∃ i, 2 * i + n = c ∧ Pal s i n}

/-- a palindrome that cannot be extended is the longest with its center -/
theorem isGreatest_length (h : Pal s i n) (hstop : ∀ j, j + 1 = i → i + n < s.length → s[j]? ≠ s[i + n]?) :
    IsGreatest (lengths s (2 * i + n)) n := by
  refine ⟨⟨i, rfl, h⟩, ?_⟩
  rintro m ⟨j, hcenter, hpal⟩
  by_contra hlong
  have hle := hpal.le
  obtain ⟨k, hk⟩ : ∃ k, k + 1 = i := ⟨i - 1, by omega⟩
  exact hstop k hk (by omega) (hpal.eq (by omega) (by omega) (by omega))

/-! ## The longest -/

/-- the first longest palindrome of all -/
structure Longest (s : List α) (i n : ℕ) : Prop where
  pal : Pal s i n
  longest : ∀ j k, Pal s j k → k ≤ n
  leftmost : ∀ j, Pal s j n → i ≤ j

theorem Longest.unique (h : Longest s i n) (h' : Longest s j m) : i = j ∧ n = m := by
  obtain rfl : n = m := le_antisymm (h'.longest i n h.pal) (h.longest j m h'.pal)
  exact ⟨le_antisymm (h.leftmost j h'.pal) (h'.leftmost i h.pal), rfl⟩

theorem longest_nil : Longest ([] : List α) 0 0 := by
  refine ⟨pal_zero le_rfl, fun j k hpal => ?_, fun j _ => Nat.zero_le j⟩
  have hle := hpal.le
  rw [List.length_nil] at hle
  omega

/-- the longest palindrome among the parts that were seen, the first of them if there are several; the search begins with the
first element -/
structure Leads (s : List α) (seen : ℕ → ℕ → Prop) (i n : ℕ) : Prop where
  pal : Pal s i n
  pos : 1 ≤ n
  first : i = 0 ∨ seen i n
  longest : ∀ j k, seen j k → Pal s j k → k < n ∨ k = n ∧ i ≤ j

variable {seen seen' : ℕ → ℕ → Prop}

theorem Leads.keep (h : Leads s seen i n) (hseen : seen i n → seen' i n)
    (hnew : ∀ j k, seen' j k → Pal s j k → ¬ seen j k → k ≤ n ∧ (seen i n → i ≤ j)) : Leads s seen' i n := by
  refine ⟨h.pal, h.pos, h.first.imp_right hseen, fun j k hjk hpal => ?_⟩
  by_cases hold : seen j k
  · exact h.longest j k hold hpal
  · obtain ⟨hk, hij⟩ := hnew j k hjk hpal hold
    rcases hk.lt_or_eq with hlt | rfl
    · exact Or.inl hlt
    · rcases h.first with rfl | hfirst
      · exact Or.inr ⟨rfl, Nat.zero_le j⟩
      · exact Or.inr ⟨rfl, hij hfirst⟩

theorem Leads.replace (h : Leads s seen i n) (hpal : Pal s j m) (hlong : n < m) (hseen : seen' j m)
    (hnew : ∀ a k, seen' a k → Pal s a k → ¬ seen a k → k < m ∨ k = m ∧ j ≤ a) : Leads s seen' j m := by
  refine ⟨hpal, by omega, Or.inr hseen, fun a k hak hpal' => ?_⟩
  by_cases hold : seen a k
  · have := h.longest a k hold hpal'
    omega
  · exact hnew a k hak hpal' hold

theorem Leads.longest_of_all (h : Leads s seen i n) (hall : ∀ j k, Pal s j k → seen j k) : Longest s i n := by
  refine ⟨h.pal, fun j k hpal => ?_, fun j hpal => ?_⟩
  · have := h.longest j k (hall j k hpal) hpal
    omega
  · have := h.longest j n (hall j n hpal) hpal
    omega

/-! ## All of them -/

section Found

variable [DecidableEq α]

/-- the bounds of the palindromes: `s[i..j]` with the last index `j` -/
def occurrences (s : List α) : Finset (ℕ × ℕ) :=
  (Finset.range s.length ×ˢ Finset.range s.length).filter fun p => p.1 ≤ p.2 ∧ ((s.drop p.1).take (p.2 + 1 - p.1)).Palindrome

theorem mem_occurrences {p : ℕ × ℕ} : p ∈ occurrences s ↔ p.1 ≤ p.2 ∧ Pal s p.1 (p.2 + 1 - p.1) := by
  rw [occurrences, Finset.mem_filter, Finset.mem_product, Finset.mem_range, Finset.mem_range]
  constructor
  · rintro ⟨⟨-, hj⟩, hle, hpal⟩
    exact ⟨hle, by omega, hpal⟩
  · rintro ⟨hle, hin, hpal⟩
    exact ⟨⟨by omega, by omega⟩, hle, hpal⟩

/-- every character is one -/
theorem length_le_card (s : List α) : s.length ≤ (occurrences s).card := by
  refine (Finset.card_range s.length).symm.le.trans (Finset.card_le_card_of_injOn (fun i => (i, i)) (fun i hi => ?_)
    fun i _ j _ heq => (Prod.mk.inj heq).1)
  have hone := pal_one (Finset.mem_range.1 hi)
  refine mem_occurrences.2 ⟨le_rfl, ?_⟩
  rwa [Nat.add_sub_cancel_left]

/-- the palindromes with bounds of this kind -/
def found (s : List α) (P : ℕ × ℕ → Prop) [DecidablePred P] : Multiset (List α) :=
  ((occurrences s).filter P).val.map fun p => (s.drop p.1).take (p.2 + 1 - p.1)

variable {P Q R : ℕ × ℕ → Prop} [DecidablePred P] [DecidablePred Q] [DecidablePred R]

theorem found_add (hor : ∀ p ∈ occurrences s, R p ↔ P p ∨ Q p) (hdisj : ∀ p, P p → ¬ Q p) :
    found s R = found s P + found s Q := by
  have hboth : (occurrences s).val.filter (fun p => P p ∧ Q p) = 0 :=
    Multiset.filter_eq_nil.2 fun p _ hp => hdisj p hp.1 hp.2
  rw [found, found, found, ← Multiset.map_add, Finset.filter_val, Finset.filter_val, Finset.filter_val,
    Multiset.filter_add_filter, hboth, add_zero]
  congr 1
  exact Multiset.filter_congr hor

theorem found_none (h : ∀ p ∈ occurrences s, ¬ P p) : found s P = 0 := by
  rw [found, Finset.filter_val, Multiset.filter_eq_nil.2 h, Multiset.map_zero]

theorem found_singleton (h : (i, j) ∈ occurrences s) : found s (· = (i, j)) = {(s.drop i).take (j + 1 - i)} := by
  have hone : (occurrences s).filter (· = (i, j)) = {(i, j)} := by
    rw [Finset.filter_eq', if_pos h]
  rw [found, hone, Finset.singleton_val, Multiset.map_singleton]

theorem card_found_le (s : List α) (P : ℕ × ℕ → Prop) [DecidablePred P] : (found s P).card ≤ (occurrences s).card := by
  rw [found, Multiset.card_map]
  exact Finset.card_le_card (Finset.filter_subset _ _)

/-- those with the center `c` that begin before index `i` -/
def Outer (c i : ℕ) (p : ℕ × ℕ) : Prop := p.1 + p.2 + 1 = c ∧ p.1 < i

instance (c i : ℕ) : DecidablePred (Outer c i) := fun _ => inferInstanceAs (Decidable (_ ∧ _))

theorem found_outer (h : (i, j) ∈ occurrences s) :
    found s (Outer (i + 1 + j) (i + 1)) = (s.drop i).take (j + 1 - i) ::ₘ found s (Outer (i + (j + 1)) i) := by
  rw [← Multiset.singleton_add, ← found_singleton h]
  refine found_add (fun p _ => ?_) fun p hp hout => ?_
  · rw [Outer, Outer, Prod.ext_iff]
    omega
  · rw [hp] at hout
    exact lt_irrefl i hout.2

/-- nothing at the ends: nothing around it -/
theorem found_outer_none (hij : i ≤ j + 1) (hstop : ∀ a, a + 1 = i → j < s.length → s[a]? ≠ s[j]?) :
    found s (Outer (i + j) i) = 0 := by
  refine found_none ?_
  rintro ⟨a, b⟩ hab ⟨hcenter, ha⟩
  obtain ⟨hle, hpal⟩ := mem_occurrences.1 hab
  have hlast := hpal.le
  dsimp only at hle hpal hlast hcenter ha
  exact hstop (i - 1) (by omega) (by omega) (hpal.eq (by omega) (by omega) (by omega))

/-- elements are equal at the same distance from the center, from `i` and `r` inwards -/
def Mirrored (s : List α) (i r : ℕ) : Prop := ∀ a b, a + b + 1 = i + r → i ≤ a → i ≤ b → s[a]? = s[b]?

omit [DecidableEq α] in
theorem mirrored_of_le (h : r ≤ i) : Mirrored s i r := by
  intro a b hab ha hb
  obtain rfl : a = b := by omega
  rfl

theorem Mirrored.occurs (h : Mirrored s (i + 1) r) (hir : i ≤ r) (hr : r < s.length) (hends : s[i]? = s[r]?) :
    (i, r) ∈ occurrences s := by
  refine mem_occurrences.2 ⟨hir, pal_iff.2 ⟨by dsimp only; omega, fun a b hab ha hb => ?_⟩⟩
  dsimp only at hab ha hb
  rcases ha.eq_or_lt with rfl | ha'
  · obtain rfl : b = r := by omega
    exact hends
  · rcases hb.eq_or_lt with rfl | hb'
    · obtain rfl : a = r := by omega
      exact hends.symm
    · exact h a b (by omega) ha' hb'

theorem mirrored_of_occurs (h : (i, r) ∈ occurrences s) : Mirrored s i (r + 1) := by
  obtain ⟨hir, hpal⟩ := mem_occurrences.1 h
  dsimp only at hir hpal
  exact fun a b hab ha hb => hpal.eq (by omega) ha hb

end Found

end InterviewPrep.Factor
