/-
The longest palindromic substring: pureStorage/longestPalindrome.cpp.

`longestPalindrome` expands around every center, `longestPalindromeBruteForce` tries all substrings. Indices are `int`s; an index
outside the string, an overflow, an exception and a loop that does not end are `none`.

- `expandAroundCenter_odd` and `expandAroundCenter_even`: the longest palindrome around a center, unless its length is 2 ^ 31 - 1;
- `centerLoop_leads` and `innerLoop_leads`: both loops keep the first longest palindrome of the substrings they have seen;
- `longestPalindrome_longest`: the result for the strings that `Fits` describes, and `longestPalindrome_overflow` for all others;
- `bruteForce_iff`: the last line takes too many characters, unless the palindrome begins or ends the string.
-/
import InterviewPrep.Core.Factor
import InterviewPrep.Core.Text

namespace InterviewPrep.LongestPalindrome

open Numeral (int int_of_small signed signed_of_small signed_of_big)
open Text (Chars charAt charAt_natCast)
open Factor (Pal Longest Leads lengths)

/-! ## Model -/

/-- `s.substr(pos, n)`; the arguments are converted to `size_t` -/
def substr (s : Chars) (pos n : ℤ) : Option Chars :=
  if 0 ≤ pos ∧ pos ≤ s.length then some ((s.drop pos.toNat).take (n % 2 ^ 64).toNat) else none

/-- `while (left >= 0 && right < s.length() && s[left] == s[right])` -/
def expandLoop (s : Chars) : ℕ → ℤ → ℤ → Option (ℤ × ℤ)
  | 0, _, _ => none
  | fuel + 1, left, right =>
    if left ≥ 0 ∧ right < s.length then do
      let a ← charAt s left
      let b ← charAt s right
      if a = b then do
        let next ← signed (right + 1)
        expandLoop s fuel (left - 1) next
      else some (left, right)
    else some (left, right)

def expandAroundCenter (s : Chars) (left right : ℤ) : Option ℤ := do
  let ends ← expandLoop s (s.length + 1) left right
  let width ← signed (ends.2 - ends.1)
  signed (width - 1)

/-- `for (int i = 0; i < s.length(); i++)` -/
def centerLoop (s : Chars) : ℕ → ℤ → ℤ → ℤ → Option (ℤ × ℤ)
  | 0, _, _, _ => none
  | fuel + 1, i, start, last =>
    if i < s.length then do
      let len1 ← expandAroundCenter s i i
      let next ← signed (i + 1)
      let len2 ← expandAroundCenter s i next
      let len := max len1 len2
      if len > last - start + 1 then centerLoop s fuel next (i - (len - 1) / 2) (i + len / 2)
      else centerLoop s fuel next start last
    else some (start, last)

def longestPalindrome (s : Chars) : Option Chars :=
  if s = [] then some []
  else do
    let best ← centerLoop s (s.length + 1) 0 0 0
    substr s best.1 (best.2 - best.1 + 1)

/-- `while (left < right)` -/
def isPalindrome (str : Chars) : ℕ → ℤ → ℤ → Option Bool
  | 0, _, _ => none
  | fuel + 1, left, right =>
    if left < right then do
      let a ← charAt str left
      let b ← charAt str right
      if a ≠ b then some false else isPalindrome str fuel (left + 1) (right - 1)
    else some true

/-- `for (int j = i; j < n; j++)` -/
def innerLoop (s : Chars) (n i : ℤ) : ℕ → ℤ → ℤ → ℤ → Option (ℤ × ℤ)
  | 0, _, _, _ => none
  | fuel + 1, j, start, maxLength =>
    if j < n then do
      let palindrome ← isPalindrome s (s.length + 1) i j
      if palindrome ∧ j - i + 1 > maxLength then innerLoop s n i fuel (j + 1) i (j - i + 1)
      else innerLoop s n i fuel (j + 1) start maxLength
    else some (start, maxLength)

/-- `for (int i = 0; i < n; i++)` -/
def outerLoop (s : Chars) (n : ℤ) : ℕ → ℤ → ℤ → ℤ → Option (ℤ × ℤ)
  | 0, _, _, _ => none
  | fuel + 1, i, start, maxLength =>
    if i < n then do
      let best ← innerLoop s n i (s.length + 1) i start maxLength
      outerLoop s n fuel (i + 1) best.1 best.2
    else some (start, maxLength)

def longestPalindromeBruteForce (s : Chars) : Option Chars :=
  let n := int s.length
  if n = 0 then some []
  else do
    let best ← outerLoop s n (s.length + 1) 0 0 1
    substr s best.1 (best.1 + best.2)

/-! ## One center -/

variable {s : Chars} {i j k m n : ℕ} {fuel : ℕ}

/-- from a palindrome on, as far as it can be extended -/
theorem expandLoop_from (hlen : s.length < 2 ^ 31) (h : Pal s i n) (hfuel : s.length - (i + n) < fuel) :
    ∃ j m : ℕ, expandLoop s fuel ((i : ℤ) - 1) (i + n : ℕ) = some ((j : ℤ) - 1, ((j + m : ℕ) : ℤ)) ∧
      IsGreatest (lengths s (2 * i + n)) m := by
  induction fuel generalizing i n with
  | zero => omega
  | succ fuel ih =>
    have hle := h.le
    rw [expandLoop]
    cases i with
    | zero =>
      refine ⟨0, n, ?_, Factor.isGreatest_length h fun j hj => absurd hj (Nat.succ_ne_zero j)⟩
      rw [if_neg (by omega)]
    | succ i =>
      rw [Nat.cast_succ, add_sub_cancel_right]
      by_cases hright : i + 1 + n < s.length
      · rw [if_pos (by omega), charAt_natCast, charAt_natCast]
        obtain ⟨a, ha⟩ : ∃ a, s[i]? = some a := ⟨_, List.getElem?_eq_getElem (by omega)⟩
        obtain ⟨b, hb⟩ : ∃ b, s[i + 1 + n]? = some b := ⟨_, List.getElem?_eq_getElem hright⟩
        rw [ha, hb, Option.bind_eq_bind, Option.bind_some, Option.bind_eq_bind, Option.bind_some]
        by_cases hab : a = b
        · have hnext : ((i + 1 + n : ℕ) : ℤ) + 1 = (i + (n + 2) : ℕ) := by omega
          have houter : Pal s i (n + 2) := by
            refine h.outer (by omega) ?_
            rw [ha, hab, ← hb, add_assoc i 1 n, add_comm 1 n]
          have hcenter : 2 * i + (n + 2) = 2 * (i + 1) + n := by ring
          rw [if_pos hab, hnext, signed_of_small (by omega) (by omega), Option.bind_some, ← hcenter]
          exact ih houter (by omega)
        · refine ⟨i + 1, n, ?_, Factor.isGreatest_length h fun j hj hin => ?_⟩
          · rw [if_neg hab, Nat.cast_succ, add_sub_cancel_right]
          · obtain rfl := Nat.succ.inj hj
            rw [ha, hb]
            exact fun heq => hab (Option.some.inj heq)
      · refine ⟨i + 1, n, ?_, Factor.isGreatest_length h fun j _ hin => absurd hin hright⟩
        rw [if_neg (by omega), Nat.cast_succ, add_sub_cancel_right]

/-- what `expandAroundCenter` makes of a length: `right - left` has to be an `int` -/
def width (m : ℕ) : Option ℤ := if m + 1 < 2 ^ 31 then some (m : ℤ) else none

theorem width_eq (j m : ℕ) :
    ((signed (((j + m : ℕ) : ℤ) - ((j : ℤ) - 1))).bind fun width => signed (width - 1)) = width m := by
  have hwidth : ((j + m : ℕ) : ℤ) - ((j : ℤ) - 1) = (m : ℤ) + 1 := by
    rw [Nat.cast_add]
    ring
  rw [hwidth, width]
  split_ifs with hm
  · rw [signed_of_small (by omega) (by omega), Option.bind_some, add_sub_cancel_right, signed_of_small (by omega) (by omega)]
  · rw [signed_of_big (by omega), Option.bind_none]

/-- a center between two characters -/
theorem expandAroundCenter_even (hlen : s.length < 2 ^ 31) (hi : i < s.length) :
    ∃ m, IsGreatest (lengths s (2 * i + 2)) m ∧ expandAroundCenter s i (i + 1) = width m := by
  have hfuel : s.length - (i + 1 + 0) < s.length + 1 := by omega
  obtain ⟨j, m, hloop, hm⟩ := expandLoop_from hlen (Factor.pal_zero hi) hfuel
  refine ⟨m, hm, ?_⟩
  rw [Nat.add_zero, Nat.cast_succ, add_sub_cancel_right] at hloop
  rw [expandAroundCenter, hloop, Option.bind_eq_bind, Option.bind_some]
  exact width_eq j m

/-- a character as the center: it is equal to itself -/
theorem expandAroundCenter_odd (hlen : s.length < 2 ^ 31) (hi : i < s.length) :
    ∃ m, IsGreatest (lengths s (2 * i + 1)) m ∧ expandAroundCenter s i i = width m := by
  have hfuel : s.length - (i + 1) < s.length := by omega
  obtain ⟨j, m, hloop, hm⟩ := expandLoop_from hlen (Factor.pal_one hi) hfuel
  obtain ⟨a, ha⟩ : ∃ a, s[i]? = some a := ⟨_, List.getElem?_eq_getElem hi⟩
  have hstart : expandLoop s (s.length + 1) i i = expandLoop s s.length ((i : ℤ) - 1) (i + 1 : ℕ) := by
    rw [expandLoop, if_pos (by omega), charAt_natCast, ha, Option.bind_eq_bind, Option.bind_some, Option.bind_eq_bind,
      Option.bind_some, if_pos rfl, signed_of_small (by omega) (by omega), Option.bind_some, Nat.cast_succ]
  refine ⟨m, hm, ?_⟩
  rw [expandAroundCenter, hstart, hloop, Option.bind_eq_bind, Option.bind_some]
  exact width_eq j m

/-! ## All centers -/

/-- the part has a center up to `c` -/
def upTo (c j k : ℕ) : Prop := 2 * j + k ≤ c

/-- The strings for which no `int` overflows: they have less than 2 ^ 31 - 1 characters, or just as many, which are no palindrome. -/
def Fits (s : Chars) : Prop := s.length < 2 ^ 31 ∧ (s.length + 1 = 2 ^ 31 → ¬ s.Palindrome)

theorem pal_length : Pal s 0 s.length ↔ s.Palindrome := by
  constructor
  · intro h
    have hpal := h.palindrome
    rwa [List.drop_zero, List.take_length] at hpal
  · intro h
    refine ⟨by omega, ?_⟩
    rwa [List.drop_zero, List.take_length]

theorem Fits.width_eq (h : Fits s) (hm : m ∈ lengths s k) : width m = some (m : ℤ) := by
  obtain ⟨i, -, hpal⟩ := hm
  have hle := hpal.le
  rw [width, if_pos]
  by_contra hlong
  have hlen := h.1
  obtain ⟨rfl, rfl⟩ : i = 0 ∧ m = s.length := by omega
  exact h.2 (by omega) (pal_length.1 hpal)

section Round

variable {start m₁ m₂ : ℕ} (h : Leads s (upTo (2 * i)) start n) (h₁ : IsGreatest (lengths s (2 * i + 1)) m₁)
  (h₂ : IsGreatest (lengths s (2 * i + 2)) m₂)
include h h₁ h₂

omit h in
/-- a palindrome with one of the two new centers -/
theorem length_le_max (hjk : upTo (2 * (i + 1)) j k) (hpal : Pal s j k) (hnew : ¬ upTo (2 * i) j k) :
    2 * i < 2 * j + k ∧ k ≤ max m₁ m₂ := by
  unfold upTo at hjk hnew
  refine ⟨by omega, ?_⟩
  rcases Nat.lt_or_ge (2 * j + k) (2 * i + 2) with hodd | heven
  · exact (h₁.2 ⟨j, by omega, hpal⟩).trans (le_max_left m₁ m₂)
  · exact (h₂.2 ⟨j, by omega, hpal⟩).trans (le_max_right m₁ m₂)

theorem leads_keep (hshort : max m₁ m₂ ≤ n) : Leads s (upTo (2 * (i + 1))) start n := by
  refine h.keep (fun hseen => ?_) fun j k hjk hpal hnew => ?_
  · unfold upTo at hseen ⊢
    omega
  · obtain ⟨hcenter, hk⟩ := length_le_max h₁ h₂ hjk hpal hnew
    refine ⟨hk.trans hshort, fun hseen => ?_⟩
    unfold upTo at hseen
    omega

omit h in
theorem exists_longest_new :
    ∃ j, (2 * j + max m₁ m₂ = 2 * i + 1 ∨ 2 * j + max m₁ m₂ = 2 * i + 2) ∧ Pal s j (max m₁ m₂) := by
  rcases max_choice m₁ m₂ with hmax | hmax
  · obtain ⟨j, hj, hpal⟩ := h₁.1
    rw [hmax]
    exact ⟨j, Or.inl hj, hpal⟩
  · obtain ⟨j, hj, hpal⟩ := h₂.1
    rw [hmax]
    exact ⟨j, Or.inr hj, hpal⟩

/-- the bounds that are computed from the center and the length -/
theorem leads_replace (hlong : n < max m₁ m₂) :
    ∃ j : ℕ, Leads s (upTo (2 * (i + 1))) j (max m₁ m₂) ∧ (i : ℤ) - ((max m₁ m₂ : ℕ) - 1) / 2 = j ∧
      (i : ℤ) + (max m₁ m₂ : ℕ) / 2 = j + (max m₁ m₂ : ℕ) - 1 := by
  obtain ⟨j, hj, hpal⟩ := exists_longest_new h₁ h₂
  have hlengths := fun a k => length_le_max (j := a) (k := k) h₁ h₂
  generalize max m₁ m₂ = m at hlong hj hpal hlengths ⊢
  refine ⟨j, h.replace hpal hlong ?_ fun a k hak hpal' hnew => ?_, by omega, by omega⟩
  · unfold upTo
    omega
  · -- the parities of the centers differ: only one of the new palindromes has this length
    obtain ⟨hcenter, hk⟩ := hlengths a k hak hpal' hnew
    unfold upTo at hak
    omega

end Round

theorem centerLoop_leads (hs : Fits s) {start : ℕ} (h : Leads s (upTo (2 * i)) start n) (hi : i ≤ s.length)
    (hfuel : s.length - i < fuel) :
    ∃ j m : ℕ, centerLoop s fuel i start (start + n - 1) = some ((j : ℤ), (j : ℤ) + m - 1) ∧
      Leads s (upTo (2 * s.length)) j m := by
  induction fuel generalizing i start n with
  | zero => omega
  | succ fuel ih =>
    rw [centerLoop]
    rcases hi.lt_or_eq with hlt | rfl
    · have hlen := hs.1
      obtain ⟨m₁, h₁, hodd⟩ := expandAroundCenter_odd hlen hlt
      obtain ⟨m₂, h₂, heven⟩ := expandAroundCenter_even hlen hlt
      have hbest : (start : ℤ) + n - 1 - start + 1 = n := by ring
      rw [if_pos (by omega), hodd, hs.width_eq h₁.1, Option.bind_eq_bind, Option.bind_some,
        signed_of_small (by omega) (by omega), Option.bind_some, heven, hs.width_eq h₂.1, Option.bind_some]
      dsimp only
      rw [hbest, ← Nat.cast_max, ← Nat.cast_succ]
      by_cases hlong : n < max m₁ m₂
      · obtain ⟨j, hleads, hstart, hlast⟩ := leads_replace h h₁ h₂ hlong
        rw [if_pos (by omega), hstart, hlast]
        exact ih hleads hlt (by omega)
      · rw [if_neg (by omega)]
        exact ih (leads_keep h h₁ h₂ (not_lt.1 hlong)) hlt (by omega)
    · exact ⟨start, n, if_neg (lt_irrefl _), h⟩

/-- the search begins with the first character -/
theorem leads_first (hs : s ≠ []) : Leads s (upTo (2 * 0)) 0 1 := by
  refine ⟨Factor.pal_one (List.length_pos_iff.2 hs), le_rfl, Or.inl rfl, fun j k hjk _ => ?_⟩
  unfold upTo at hjk
  omega

theorem substr_eq (h : Pal s i n) {m : ℕ} (hm : m < 2 ^ 32) :
    substr s i m = some ((s.drop i).take m) := by
  have hle := h.le
  have hmod : (m : ℤ) % 2 ^ 64 = m := Int.emod_eq_of_lt (by omega) (by omega)
  rw [substr, if_pos (by omega), hmod, Int.toNat_natCast, Int.toNat_natCast]

theorem longestPalindrome_eq (hs : Fits s) : ∃ i n, Longest s i n ∧ longestPalindrome s = some ((s.drop i).take n) := by
  rcases eq_or_ne s [] with rfl | hne
  · exact ⟨0, 0, Factor.longest_nil, rfl⟩
  · obtain ⟨j, m, hloop, hleads⟩ := centerLoop_leads hs (leads_first hne) (Nat.zero_le _) (Nat.lt_succ_self (s.length - 0))
    have hlongest : Longest s j m := by
      refine hleads.longest_of_all fun a k hpal => ?_
      have := hpal.le
      unfold upTo
      omega
    refine ⟨j, m, hlongest, ?_⟩
    have hcount : (j : ℤ) + m - 1 - j + 1 = m := by ring
    have hle := hlongest.pal.le
    have hlen := hs.1
    rw [longestPalindrome, if_neg hne]
    have hloop' : centerLoop s (s.length + 1) 0 0 0 = _ := hloop
    rw [hloop', Option.bind_eq_bind, Option.bind_some]
    dsimp only
    rw [hcount, substr_eq hlongest.pal (by omega)]

/-! ## Overflow -/

/-- what is computed at every index -/
theorem centerLoop_runs {start last : ℤ} {best : ℤ × ℤ} (h : centerLoop s fuel i start last = some best) (hik : i ≤ k)
    (hk : k < s.length) : (∃ len, expandAroundCenter s k k = some len) ∧ ∃ next, signed ((k : ℤ) + 1) = some next := by
  induction fuel generalizing i start last with
  | zero => cases h
  | succ fuel ih =>
    rw [centerLoop, if_pos (by omega), Option.bind_eq_bind, Option.bind_eq_some_iff] at h
    obtain ⟨len1, hlen1, h⟩ := h
    rw [Option.bind_eq_some_iff] at h
    obtain ⟨next, hnext, h⟩ := h
    rw [Option.bind_eq_some_iff] at h
    obtain ⟨len2, -, h⟩ := h
    rcases hik.eq_or_lt with rfl | hik'
    · exact ⟨⟨len1, hlen1⟩, next, hnext⟩
    · obtain ⟨hsucc, -⟩ := Numeral.signed_eq_some.1 hnext
      rw [hsucc, ← Nat.cast_succ] at h
      dsimp only at h
      split_ifs at h
      · exact ih h hik'
      · exact ih h hik'

theorem longestPalindrome_overflow (hs : ¬ Fits s) : longestPalindrome s = none := by
  have hne : s ≠ [] := by
    rintro rfl
    exact hs ⟨by norm_num, fun hlen => absurd hlen (by norm_num)⟩
  cases hloop : centerLoop s (s.length + 1) 0 0 0 with
  | none => rw [longestPalindrome, if_neg hne, hloop, Option.bind_eq_bind, Option.bind_none]
  | some best =>
    have hruns := fun k => centerLoop_runs (i := 0) (k := k) hloop (Nat.zero_le k)
    rcases Nat.lt_or_ge s.length (2 ^ 31) with hshort | hlong
    · -- the palindrome is found from its center
      obtain ⟨hlen, hpal⟩ : s.length + 1 = 2 ^ 31 ∧ s.Palindrome := by
        by_contra hnot
        exact hs ⟨hshort, fun hlen hpal => hnot ⟨hlen, hpal⟩⟩
      obtain ⟨c, hc⟩ : ∃ c, 2 * c + 1 = s.length := ⟨s.length / 2, by omega⟩
      obtain ⟨m, hm, hwidth⟩ := expandAroundCenter_odd hshort (show c < s.length by omega)
      obtain ⟨⟨len, hsome⟩, -⟩ := hruns c (by omega)
      have hle : s.length ≤ m := hm.2 ⟨0, by omega, pal_length.2 hpal⟩
      rw [hwidth, width, if_neg (by omega)] at hsome
      cases hsome
    · obtain ⟨k, hk⟩ : ∃ k, k + 1 = 2 ^ 31 := ⟨2 ^ 31 - 1, by norm_num⟩
      obtain ⟨-, next, hnext⟩ := hruns k (by omega)
      rw [signed_of_big (by omega)] at hnext
      cases hnext

/-- **The longest palindrome.** For every string that `Fits` describes, the result is the first longest of the palindromes that
are contiguous parts of the string; for the others there is none. -/
theorem longestPalindrome_longest (s : Chars) :
    (∃ i n, Longest s i n ∧ longestPalindrome s = some ((s.drop i).take n)) ↔ Fits s := by
  constructor
  · rintro ⟨i, n, -, hres⟩
    by_contra hs
    rw [longestPalindrome_overflow hs] at hres
    cases hres
  · exact longestPalindrome_eq

/-- **A string that is too long.** An index overflows. -/
theorem many_characters : longestPalindrome (List.replicate (2 ^ 31) 'a') = none := by
  refine longestPalindrome_overflow fun hs => ?_
  have hlen := hs.1
  rw [List.length_replicate] at hlen
  exact lt_irrefl _ hlen

/-! ## All substrings -/

theorem isPalindrome_eq (hle : i + n ≤ s.length) (hfuel : n < fuel) :
    ∃ b, isPalindrome s fuel i ((i + n : ℕ) - 1) = some b ∧ (b = true ↔ Pal s i n) := by
  induction fuel generalizing i n with
  | zero => omega
  | succ fuel ih =>
    rw [isPalindrome]
    match n with
    | 0 => exact ⟨true, if_neg (by omega), iff_of_true rfl (Factor.pal_zero hle)⟩
    | 1 => exact ⟨true, if_neg (by omega), iff_of_true rfl (Factor.pal_one hle)⟩
    | n + 2 =>
      have hright : ((i + (n + 2) : ℕ) : ℤ) - 1 = (i + (n + 1) : ℕ) := by omega
      have hinner : ((i + (n + 1) : ℕ) : ℤ) - 1 = ((i + 1 + n : ℕ) : ℤ) - 1 := by omega
      obtain ⟨a, ha⟩ : ∃ a, s[i]? = some a := ⟨_, List.getElem?_eq_getElem (by omega)⟩
      obtain ⟨b, hb⟩ : ∃ b, s[i + (n + 1)]? = some b := ⟨_, List.getElem?_eq_getElem (by omega)⟩
      rw [if_pos (by omega), hright, charAt_natCast, charAt_natCast, ha, hb, Option.bind_eq_bind, Option.bind_some,
        Option.bind_some, Factor.pal_add_two hle, ha, hb, Option.some.injEq]
      by_cases hab : a = b
      · obtain ⟨r, hr, hpal⟩ := ih (i := i + 1) (n := n) (by omega) (by omega)
        refine ⟨r, ?_, ?_⟩
        · rw [if_neg (not_not.2 hab), hinner, ← Nat.cast_succ]
          exact hr
        · rw [hpal]
          exact ⟨fun h => ⟨hab, h⟩, fun h => h.2⟩
      · exact ⟨false, if_pos hab, iff_of_false Bool.false_ne_true fun h => hab h.1⟩

/-- the part comes before the one from index `i` up to `j` in the order of the search -/
def before (i j a k : ℕ) : Prop := a < i ∨ a = i ∧ a + k ≤ j

theorem innerLoop_leads {start : ℕ} (h : Leads s (before i j) start n) (hij : i ≤ j) (hj : j ≤ s.length)
    (hfuel : s.length - j < fuel) :
    ∃ a m : ℕ, innerLoop s s.length i fuel j start n = some ((a : ℤ), (m : ℤ)) ∧ Leads s (before i s.length) a m := by
  induction fuel generalizing j start n with
  | zero => omega
  | succ fuel ih =>
    rw [innerLoop]
    rcases hj.lt_or_eq with hlt | rfl
    · obtain ⟨k, hk⟩ : ∃ k, i + k = j + 1 := ⟨j + 1 - i, by omega⟩
      have hlast : ((i + k : ℕ) : ℤ) - 1 = j := by omega
      have hcount : (j : ℤ) - i + 1 = k := by omega
      obtain ⟨b, hb, hpal⟩ := isPalindrome_eq (s := s) (i := i) (n := k) (by omega) (show k < s.length + 1 by omega)
      rw [hlast] at hb
      rw [if_pos (by omega), hb, Option.bind_eq_bind, Option.bind_some, hcount, ← Nat.cast_succ]
      have hseen : before i j start n → before i (j + 1) start n := by
        unfold before
        omega
      have hnew : ∀ a l, before i (j + 1) a l → ¬ before i j a l → a = i ∧ l = k := by
        unfold before
        omega
      by_cases hlong : b = true ∧ (k : ℤ) > n
      · rw [if_pos hlong]
        refine ih (h.replace (hpal.1 hlong.1) (by omega) (Or.inr ⟨rfl, by omega⟩) fun a l hal _ hold => ?_) (by omega) hlt (by omega)
        obtain ⟨rfl, rfl⟩ := hnew a l hal hold
        exact Or.inr ⟨rfl, le_rfl⟩
      · rw [if_neg hlong]
        refine ih (h.keep hseen fun a l hal hpal' hold => ?_) (by omega) hlt (by omega)
        obtain ⟨rfl, rfl⟩ := hnew a l hal hold
        refine ⟨?_, fun hfirst => ?_⟩
        · by_contra hgreater
          exact hlong ⟨hpal.2 hpal', by omega⟩
        · unfold before at hfirst
          omega
    · exact ⟨start, n, if_neg (lt_irrefl _), h⟩

theorem outerLoop_leads {start : ℕ} (h : Leads s (before i i) start n) (hi : i ≤ s.length) (hfuel : s.length - i < fuel) :
    ∃ a m : ℕ, outerLoop s s.length fuel i start n = some ((a : ℤ), (m : ℤ)) ∧
      Leads s (before s.length s.length) a m := by
  induction fuel generalizing i start n with
  | zero => omega
  | succ fuel ih =>
    rw [outerLoop]
    rcases hi.lt_or_eq with hlt | rfl
    · obtain ⟨a, m, hinner, hleads⟩ := innerLoop_leads h le_rfl hi (show s.length - i < s.length + 1 by omega)
      rw [if_pos (by omega), hinner, Option.bind_eq_bind, Option.bind_some, ← Nat.cast_succ]
      refine ih (hleads.keep (fun hseen => ?_) fun c l hcl hpal hold => ?_) hlt (by omega)
      · unfold before at hseen ⊢
        omega
      · have hle := hpal.le
        unfold before at hcl hold ⊢
        omega
    · exact ⟨start, n, if_neg (lt_irrefl _), h⟩

theorem bruteForce_eq (hlen : s.length < 2 ^ 31) :
    ∃ i n, Longest s i n ∧ longestPalindromeBruteForce s = some ((s.drop i).take (i + n)) := by
  have hint : int s.length = s.length := int_of_small (by omega) (by omega)
  rcases eq_or_ne s [] with rfl | hne
  · exact ⟨0, 0, Factor.longest_nil, rfl⟩
  · have hpos := List.length_pos_iff.2 hne
    have hfirst : Leads s (before 0 0) 0 1 := by
      refine ⟨Factor.pal_one hpos, le_rfl, Or.inl rfl, fun j k hjk _ => ?_⟩
      unfold before at hjk
      omega
    obtain ⟨i, n, hloop, hleads⟩ := outerLoop_leads hfirst (Nat.zero_le _) (Nat.lt_succ_self (s.length - 0))
    have hlongest : Longest s i n := by
      refine hleads.longest_of_all fun a k hpal => ?_
      have := hpal.le
      unfold before
      omega
    have hle := hlongest.pal.le
    refine ⟨i, n, hlongest, ?_⟩
    have hloop' : outerLoop s s.length (s.length + 1) 0 0 1 = _ := hloop
    rw [longestPalindromeBruteForce, hint, if_neg (by omega), hloop', Option.bind_eq_bind, Option.bind_some]
    dsimp only
    rw [← Nat.cast_add, substr_eq hlongest.pal (by omega)]

/-- The first longest palindrome begins or ends the string. -/
def AtEnd (s : Chars) : Prop := ∃ i n, Longest s i n ∧ (i = 0 ∨ i + n = s.length)

/-- as many characters as the last index says -/
theorem take_eq_iff (h : Pal s i n) : (s.drop i).take n = (s.drop i).take (i + n) ↔ i = 0 ∨ i + n = s.length := by
  have hle := h.le
  constructor
  · intro heq
    have hcount := congrArg List.length heq
    simp only [List.length_take, List.length_drop] at hcount
    omega
  · rintro (rfl | hend)
    · rw [Nat.zero_add]
    · rw [List.take_of_length_le (by rw [List.length_drop]; omega), List.take_of_length_le (by rw [List.length_drop]; omega)]

/-- **Both versions.** They return the same string exactly when no `int` overflows and the first longest palindrome begins or ends
the string. -/
theorem bruteForce_iff (s : Chars) :
    (∃ r, longestPalindrome s = some r ∧ longestPalindromeBruteForce s = some r) ↔ Fits s ∧ AtEnd s := by
  by_cases hs : Fits s
  · obtain ⟨i, n, hlongest, hfast⟩ := longestPalindrome_eq hs
    obtain ⟨j, m, hlongest', hslow⟩ := bruteForce_eq hs.1
    obtain ⟨rfl, rfl⟩ := hlongest.unique hlongest'
    rw [hfast, hslow]
    constructor
    · rintro ⟨r, hr, hr'⟩
      exact ⟨hs, i, n, hlongest, (take_eq_iff hlongest.pal).1 (Option.some.inj (hr.trans hr'.symm))⟩
    · rintro ⟨-, j, m, hlongest', hend⟩
      obtain ⟨rfl, rfl⟩ := hlongest.unique hlongest'
      exact ⟨_, rfl, congrArg some ((take_eq_iff hlongest.pal).2 hend).symm⟩
  · refine iff_of_false ?_ fun h => hs h.1
    rintro ⟨r, hr, -⟩
    rw [longestPalindrome_overflow hs] at hr
    cases hr

/-- **A palindrome in the middle.** One character too many is returned. -/
theorem middle_palindrome :
    longestPalindrome "cbbd".toList = some "bb".toList ∧ longestPalindromeBruteForce "cbbd".toList = some "bbd".toList := by
  decide

end InterviewPrep.LongestPalindrome
