/-
Strings as lists of characters.

- `charAt`: the character at an index of type `int`, `none` outside the string.
- `number`: the number that a string of digits stands for. It is in the lexicographic order of strings of one length
  (`number_le`), and `strip` takes off the leading zeros: `toDigits_number` says that the decimal numeral of the number is
  what is left.
-/
import Mathlib.Data.Char
import Mathlib.Data.List.Lex
import InterviewPrep.Core.Numeral

namespace InterviewPrep.Text

abbrev Chars := List Char

/-- `s[i]` -/
def charAt {α : Type} (s : List α) (i : ℤ) : Option α := if 0 ≤ i then s[i.toNat]? else none

theorem charAt_natCast {α : Type} (s : List α) (i : ℕ) : charAt s i = s[i]? := by
  rw [charAt, if_pos (Int.natCast_nonneg i), Int.toNat_natCast]

theorem charAt_pred {α : Type} (s : List α) (i : ℕ) : charAt s ((i + 1 : ℕ) - 1 : ℤ) = s[i]? := by
  rw [Nat.cast_succ, add_sub_cancel_right, charAt_natCast]

/-! ## Decimal numbers -/

def number (s : Chars) : ℕ := Numeral.value 10 (s.map fun c => c.toNat - 48)

variable {s t : Chars} {c d : Char}

theorem digit_range (hc : c.isDigit) : 48 ≤ c.toNat ∧ c.toNat ≤ 57 := Char.isDigit_iff_toNat.1 hc

theorem number_lt (hs : ∀ c ∈ s, c.isDigit) : number s < 10 ^ s.length := by
  have hdigits : ∀ d ∈ s.map (fun c => c.toNat - 48), d < 10 := by
    intro d hd
    obtain ⟨c, hc, rfl⟩ := List.mem_map.1 hd
    have := digit_range (hs c hc)
    omega
  have hlt := Numeral.value_lt hdigits
  rwa [List.length_map] at hlt

theorem number_cons (c : Char) (s : Chars) : number (c :: s) = (c.toNat - 48) * 10 ^ s.length + number s := by
  rw [number, List.map_cons, ← List.singleton_append, Numeral.value_append, List.length_map]
  simp [Numeral.value, number]

theorem number_concat (s : Chars) (c : Char) : number (s ++ [c]) = 10 * number s + (c.toNat - 48) := by
  rw [number, List.map_append, List.map_singleton, Numeral.value_concat]
  rfl

/-- strings of one length are ordered like their numbers -/
theorem number_le (hlen : s.length = t.length) (hs : ∀ c ∈ s, c.isDigit) (ht : ∀ c ∈ t, c.isDigit) (h : s ≤ t) :
    number s ≤ number t := by
  induction s generalizing t with
  | nil => exact Nat.zero_le _
  | cons c s ih =>
    cases t with
    | nil => cases hlen
    | cons d t =>
      have hlen' : s.length = t.length := Nat.succ.inj hlen
      rw [List.forall_mem_cons] at hs ht
      rw [number_cons, number_cons, hlen']
      rcases h.lt_or_eq with hlt | heq
      · rcases List.cons_lt_cons_iff.1 hlt with hcd | ⟨rfl, hst⟩
        · have hrange := digit_range hs.1
          have hless : c.toNat < d.toNat := hcd
          have hrest := number_lt hs.2
          rw [hlen'] at hrest
          calc (c.toNat - 48) * 10 ^ t.length + number s ≤ (c.toNat - 48 + 1) * 10 ^ t.length := by
                rw [add_mul, one_mul]
                omega
            _ ≤ (d.toNat - 48) * 10 ^ t.length := Nat.mul_le_mul_right _ (by omega)
            _ ≤ (d.toNat - 48) * 10 ^ t.length + number t := Nat.le_add_right _ _
        · exact Nat.add_le_add_left (ih hlen' hs.2 ht.2 hst.le) _
      · obtain ⟨rfl, rfl⟩ := List.cons.inj heq
        exact le_rfl

theorem digitChar_digit (hc : c.isDigit) : Nat.digitChar (c.toNat - 48) = c := by
  obtain ⟨hlow, hhigh⟩ := digit_range hc
  obtain ⟨d, hd⟩ := Nat.exists_eq_add_of_le hlow
  apply Char.toNat_inj.1
  rw [hd, Nat.add_sub_cancel_left, Nat.toNat_digitChar_of_lt_ten (by omega)]

/-- a numeral without leading zeros -/
theorem toDigits_number_of_head (hne : s ≠ []) (hs : ∀ c ∈ s, c.isDigit) (hhead : s.head? ≠ some '0') :
    Nat.toDigits 10 (number s) = s := by
  induction s using List.reverseRecOn with
  | nil => exact absurd rfl hne
  | append_singleton s c ih =>
    have hc : c.isDigit := hs c (List.mem_append_right s List.mem_cons_self)
    have hrange := digit_range hc
    rcases eq_or_ne s [] with rfl | hs'
    · show Nat.toDigits 10 (10 * 0 + (c.toNat - 48)) = [c]
      rw [mul_zero, zero_add, Nat.toDigits_of_lt_base (by omega), digitChar_digit hc]
    · have hhead' : s.head? ≠ some '0' := by
        cases s with
        | nil => exact absurd rfl hs'
        | cons d s => exact hhead
      have hfront := ih hs' (fun d hd => hs d (List.mem_append_left [c] hd)) hhead'
      have hpos : 0 < number s := by
        rcases Nat.eq_zero_or_pos (number s) with hzero | hpos
        · rw [hzero, Nat.toDigits_zero] at hfront
          exact absurd (hfront ▸ rfl) hhead'
        · exact hpos
      rw [number_concat, ← Nat.toDigits_append_toDigits (by norm_num) hpos (by omega), hfront,
        Nat.toDigits_of_lt_base (by omega), digitChar_digit hc]

/-- without leading zeros, "0" if there is nothing else -/
def strip (s : Chars) : Chars := if s.dropWhile (· = '0') = [] then ['0'] else s.dropWhile (· = '0')

theorem strip_zero (s : Chars) : strip ('0' :: s) = strip s := rfl

theorem strip_of_ne (hc : c ≠ '0') (s : Chars) : strip (c :: s) = c :: s := by
  simp [strip, hc]

/-- the decimal numeral of the number -/
theorem toDigits_number (hs : ∀ c ∈ s, c.isDigit) : Nat.toDigits 10 (number s) = strip s := by
  induction s with
  | nil => exact Nat.toDigits_zero 10
  | cons c s ih =>
    rcases eq_or_ne c '0' with rfl | hc
    · have hzero : number ('0' :: s) = number s := by
        rw [number_cons]
        exact (congrArg (· + number s) (Nat.zero_mul _)).trans (Nat.zero_add _)
      rw [hzero, strip_zero, ih (List.forall_mem_cons.1 hs).2]
    · rw [strip_of_ne hc]
      exact toDigits_number_of_head (List.cons_ne_nil c s) hs fun hhead => hc (Option.some.inj hhead)

end InterviewPrep.Text
