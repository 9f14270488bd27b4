/-
The largest number that is left when one occurrence of a digit is removed: arista/removeDigit.cpp.

The loop makes a candidate at every index and keeps the largest one in the order of strings, starting from "0". Indices and the
length are `int`s; an access outside the string is not possible (`none`).

- `removeDigit_isGreatest`: for strings of fewer than 2 ^ 31 characters, the result is the greatest of "0" and the candidates;
- `removeDigit_largest`: for a number of at least two digits in which the digit occurs, it is a candidate, and as a number no
  other one is greater. The order of strings is enough, since all candidates have the same length.
-/
import InterviewPrep.Core.Text

namespace InterviewPrep.Arista.RemoveLargest

open Numeral (int int_of_small)
open Text (Chars charAt charAt_natCast number number_le digit_range)

/-! ## Model -/

/-- `for (int i = 0; i < length; ++i)` -/
def removeLoop (number : Chars) (digit : Char) (length : ℤ) : ℕ → ℤ → Chars → Option Chars
  | 0, _, _ => none
  | fuel + 1, i, maxResult =>
    if i < length then do
      let currentChar ← charAt number i
      let candidateNumber := number.take i.toNat ++ number.drop (i + 1).toNat
      removeLoop number digit length fuel (i + 1)
        (if currentChar = digit ∧ maxResult < candidateNumber then candidateNumber else maxResult)
    else some maxResult

def removeDigit (number : Chars) (digit : Char) : Option Chars :=
  removeLoop number digit (int number.length) (number.length + 1) 0 ['0']

/-! ## What the loop keeps -/

/-- "0", and what is left when one of the first `n` characters is removed and it is the digit -/
def Candidates (s : Chars) (d : Char) (n : ℕ) : Set Chars :=
  {t | t = ['0'] ∨ ∃ i < n, s[i]? = some d ∧ t = s.eraseIdx i}

variable {s best : Chars} {d : Char} {n : ℕ}

theorem candidates_zero : IsGreatest (Candidates s d 0) ['0'] := by
  refine ⟨Or.inl rfl, ?_⟩
  rintro t (rfl | ⟨i, hi, -⟩)
  · exact le_refl _
  · exact absurd hi (Nat.not_lt_zero i)

/-- one index more -/
theorem candidates_succ (h : IsGreatest (Candidates s d n) best) (c : Char) (hc : s[n]? = some c) :
    IsGreatest (Candidates s d (n + 1)) (if c = d ∧ best < s.eraseIdx n then s.eraseIdx n else best) := by
  have hold : ∀ t, t ∈ Candidates s d (n + 1) → t ∈ Candidates s d n ∨ c = d ∧ t = s.eraseIdx n := by
    rintro t (rfl | ⟨i, hi, hd, rfl⟩)
    · exact Or.inl (Or.inl rfl)
    · rcases Nat.lt_succ_iff_lt_or_eq.1 hi with hlt | rfl
      · exact Or.inl (Or.inr ⟨i, hlt, hd, rfl⟩)
      · exact Or.inr ⟨Option.some.inj (hc.symm.trans hd), rfl⟩
  split_ifs with hbetter
  · refine ⟨Or.inr ⟨n, Nat.lt_succ_self n, hbetter.1 ▸ hc, rfl⟩, fun t ht => ?_⟩
    rcases hold t ht with hbefore | ⟨-, rfl⟩
    · exact (h.2 hbefore).trans hbetter.2.le
    · exact le_refl _
  · refine ⟨?_, fun t ht => ?_⟩
    · rcases h.1 with rfl | ⟨i, hi, hd, rfl⟩
      · exact Or.inl rfl
      · exact Or.inr ⟨i, Nat.lt_succ_of_lt hi, hd, rfl⟩
    · rcases hold t ht with hbefore | ⟨hd, rfl⟩
      · exact h.2 hbefore
      · exact not_lt.1 fun hlt => hbetter ⟨hd, hlt⟩

theorem removeLoop_isGreatest {fuel : ℕ} (hfuel : s.length < n + fuel) (hn : n ≤ s.length)
    (h : IsGreatest (Candidates s d n) best) :
    ∃ t, removeLoop s d s.length fuel n best = some t ∧ IsGreatest (Candidates s d s.length) t := by
  induction fuel generalizing n best with
  | zero => exact absurd hfuel (Nat.not_lt.2 hn)
  | succ fuel ih =>
    rw [removeLoop]
    rcases Nat.lt_or_eq_of_le hn with hlt | rfl
    · obtain ⟨c, hc⟩ : ∃ c, s[n]? = some c := ⟨s[n], List.getElem?_eq_getElem hlt⟩
      have hnext : ((n : ℤ) + 1).toNat = n + 1 := Int.toNat_natCast (n + 1)
      rw [if_pos (Int.ofNat_lt.2 hlt), charAt_natCast, hc, Int.toNat_natCast, hnext, ← List.eraseIdx_eq_take_drop_succ]
      exact ih (n := n + 1) (by omega) hlt (candidates_succ h c hc)
    · rw [if_neg (lt_irrefl _)]
      exact ⟨best, rfl, h⟩

/-- the greatest of "0" and the candidates -/
theorem removeDigit_isGreatest (hlen : s.length < 2 ^ 31) (d : Char) :
    ∃ t, removeDigit s d = some t ∧ IsGreatest (Candidates s d s.length) t := by
  have hint : int s.length = s.length := int_of_small (by omega) (by omega)
  rw [removeDigit, hint]
  exact removeLoop_isGreatest (n := 0) (by omega) (Nat.zero_le _) candidates_zero

/-! ## As numbers -/

/-- no string of digits comes before "0" -/
theorem zero_le_digits (hne : s ≠ []) (hs : ∀ c ∈ s, c.isDigit) : ['0'] ≤ s := by
  cases s with
  | nil => exact absurd rfl hne
  | cons c s =>
    refine not_lt.1 fun hlt => ?_
    rcases List.cons_lt_cons_iff.1 hlt with hless | ⟨-, hnil⟩
    · exact absurd (digit_range (hs c List.mem_cons_self)).1 (Nat.not_le.2 hless)
    · exact List.not_lt_nil s hnil

/-- **The largest number.** In a number of at least two and fewer than 2 ^ 31 digits in which the digit occurs, one occurrence
of it is removed, and no occurrence leaves a greater number. -/
theorem removeDigit_largest (s : Chars) (d : Char) (hlen : s.length < 2 ^ 31) (htwo : 2 ≤ s.length)
    (hs : ∀ c ∈ s, c.isDigit) (hd : d ∈ s) :
    ∃ i, s[i]? = some d ∧ removeDigit s d = some (s.eraseIdx i) ∧
      ∀ j, s[j]? = some d → number (s.eraseIdx j) ≤ number (s.eraseIdx i) := by
  obtain ⟨t, hrun, hmem, hgreatest⟩ := removeDigit_isGreatest hlen d
  have hdigits : ∀ i, ∀ c ∈ s.eraseIdx i, c.isDigit := fun i c hc => hs c (List.mem_of_mem_eraseIdx hc)
  have hlt : ∀ i, s[i]? = some d → i < s.length := fun i hi => (List.getElem?_eq_some_iff.1 hi).1
  have hlength : ∀ i, s[i]? = some d → (s.eraseIdx i).length = s.length - 1 := fun i hi =>
    List.length_eraseIdx_of_lt (hlt i hi)
  have hcandidate : ∀ i, s[i]? = some d → s.eraseIdx i ≤ t := fun i hi => hgreatest (Or.inr ⟨i, hlt i hi, hi, rfl⟩)
  obtain ⟨i, hi, rfl⟩ : ∃ i, s[i]? = some d ∧ t = s.eraseIdx i := by
    rcases hmem with rfl | ⟨i, -, hi, rfl⟩
    · -- the result "0" is one of the candidates
      obtain ⟨i, hi⟩ := List.mem_iff_getElem?.1 hd
      refine ⟨i, hi, le_antisymm (zero_le_digits ?_ (hdigits i)) (hcandidate i hi)⟩
      rw [← List.length_pos_iff, hlength i hi]
      omega
    · exact ⟨i, hi, rfl⟩
  refine ⟨i, hi, hrun, fun j hj => ?_⟩
  exact number_le ((hlength j hj).trans (hlength i hi).symm) (hdigits j) (hdigits i) (hcandidate j hj)

/-- the number in `main` -/
theorem removeDigit_largest_main :
    removeDigit ['1', '2', '3', '1', '5', '1'] '1' = some ['2', '3', '1', '5', '1'] ∧
      ∃ i, ['1', '2', '3', '1', '5', '1'][i]? = some '1' ∧
        removeDigit ['1', '2', '3', '1', '5', '1'] '1' = some (['1', '2', '3', '1', '5', '1'].eraseIdx i) ∧
        ∀ j, ['1', '2', '3', '1', '5', '1'][j]? = some '1' →
          number (['1', '2', '3', '1', '5', '1'].eraseIdx j) ≤ number (['1', '2', '3', '1', '5', '1'].eraseIdx i) :=
  ⟨by decide, removeDigit_largest ['1', '2', '3', '1', '5', '1'] '1' (by simp) (by simp) (by simp) (by simp)⟩

end InterviewPrep.Arista.RemoveLargest
