/-
Numerals of a fixed width, most significant digit first.

`digits b n v` are the last `n` digits of `v` in base `b`, with leading zeros; `value` reads a numeral back.
- `value_digits`: what is read back is `v` modulo `b ^ n`;
- `digits_add` cuts a numeral in two, `digits_sq` writes each digit of base `b * b` as two of base `b`;
- `toDigits_leftpad`: the numeral without leading zeros, padded, is the one of fixed width;
- `shiftLeft_or`: how a machine word takes in the next digit.

`int` is what a 32-bit `int` holds of a number; `signed` is the result of `int` arithmetic where overflow is undefined.
-/
import Mathlib.Tactic

namespace InterviewPrep.Numeral

def digits (b : ℕ) : ℕ → ℕ → List ℕ
  | 0, _ => []
  | n + 1, v => digits b n (v / b) ++ [v % b]

def value (b : ℕ) (ds : List ℕ) : ℕ := ds.foldl (fun v d => b * v + d) 0

variable {b n v d : ℕ} {ds es : List ℕ}

@[simp] theorem length_digits : (digits b n v).length = n := by
  induction n generalizing v with
  | zero => rfl
  | succ n ih => rw [digits, List.length_append, ih, List.length_singleton]

theorem lt_of_mem_digits (hb : 0 < b) (h : d ∈ digits b n v) : d < b := by
  induction n generalizing v with
  | zero => cases h
  | succ n ih =>
    rcases List.mem_append.1 h with h | h
    · exact ih h
    · exact List.mem_singleton.1 h ▸ Nat.mod_lt v hb

/-- the first `m` digits and the last `n` -/
theorem digits_add (m n v : ℕ) : digits b (m + n) v = digits b m (v / b ^ n) ++ digits b n (v % b ^ n) := by
  induction n generalizing v with
  | zero => rw [Nat.pow_zero, Nat.div_one, digits, List.append_nil, Nat.add_zero]
  | succ n ih =>
    have hhigh : v / b / b ^ n = v / b ^ (n + 1) := by rw [Nat.div_div_eq_div_mul, pow_succ']
    have hlow : v / b % b ^ n = v % b ^ (n + 1) / b := by rw [pow_succ', Nat.mod_mul_right_div_self]
    have hlast : v % b = v % b ^ (n + 1) % b := (Nat.mod_mod_of_dvd v (dvd_pow_self b n.succ_ne_zero)).symm
    calc digits b (m + (n + 1)) v = digits b (m + n) (v / b) ++ [v % b] := rfl
      _ = digits b m (v / b / b ^ n) ++ (digits b n (v / b % b ^ n) ++ [v % b]) := by rw [ih, List.append_assoc]
      _ = digits b m (v / b ^ (n + 1)) ++ digits b (n + 1) (v % b ^ (n + 1)) := by
          rw [hhigh, hlow, hlast]
          rfl

/-- a digit of base `b * b` as two of base `b` -/
theorem digits_sq (n v : ℕ) : (digits (b * b) n v).flatMap (fun d => [d / b, d % b]) = digits b (2 * n) v := by
  induction n generalizing v with
  | zero => rfl
  | succ n ih =>
    have hhigh : v % (b * b) / b = v / b % b := Nat.mod_mul_right_div_self v b b
    have hlow : v % (b * b) % b = v % b := Nat.mod_mod_of_dvd v (dvd_mul_right b b)
    calc (digits (b * b) (n + 1) v).flatMap (fun d => [d / b, d % b])
        = digits b (2 * n) (v / (b * b)) ++ [v % (b * b) / b, v % (b * b) % b] := by
          rw [digits, List.flatMap_append, ih]
          rfl
      _ = digits b (2 * n) (v / b / b) ++ [v / b % b] ++ [v % b] := by
          rw [hhigh, hlow, Nat.div_div_eq_div_mul, List.append_assoc]
          rfl
      _ = digits b (2 * (n + 1)) v := rfl

theorem value_concat : value b (ds ++ [d]) = b * value b ds + d := by
  rw [value, List.foldl_append]
  rfl

theorem value_append : value b (ds ++ es) = value b ds * b ^ es.length + value b es := by
  induction es using List.reverseRecOn with
  | nil => rw [List.append_nil, List.length_nil, pow_zero, mul_one, value, value, List.foldl_nil, Nat.add_zero]
  | append_singleton es e ih =>
    rw [← List.append_assoc, value_concat, value_concat, ih, List.length_append, List.length_singleton, pow_succ]
    ring

theorem value_lt (h : ∀ d ∈ ds, d < b) : value b ds < b ^ ds.length := by
  induction ds using List.reverseRecOn with
  | nil => exact Nat.one_pos
  | append_singleton ds d ih =>
    have hds := ih fun d hd => h d (List.mem_append_left _ hd)
    have hd := h d (List.mem_append_right _ List.mem_cons_self)
    rw [value_concat, List.length_append, List.length_singleton, pow_succ']
    calc b * value b ds + d < b * (value b ds + 1) := by
          rw [mul_add, mul_one]
          omega
      _ ≤ b * b ^ ds.length := Nat.mul_le_mul_left b hds

/-- what is written is read back -/
theorem value_digits : value b (digits b n v) = v % b ^ n := by
  induction n generalizing v with
  | zero => rw [pow_zero, Nat.mod_one, digits, value, List.foldl_nil]
  | succ n ih => rw [digits, value_concat, ih, pow_succ', Nat.mod_mul, add_comm]

theorem digits_zero_value : digits b n 0 = List.replicate n 0 := by
  induction n with
  | zero => rfl
  | succ n ih => rw [digits, Nat.zero_div, Nat.zero_mod, ih, List.replicate_succ']

/-- padded with zeros to the width, a numeral without leading zeros is the one of that width -/
theorem toDigits_leftpad (hb : 1 < b) (hn : 0 < n) (hv : v < b ^ n) :
    (Nat.toDigits b v).leftpad n '0' = (digits b n v).map Nat.digitChar := by
  induction n generalizing v with
  | zero => cases hn
  | succ n ih =>
    rw [digits, List.map_append, List.map_singleton]
    rcases lt_or_ge v b with hlt | hge
    · rw [Nat.toDigits_of_lt_base hlt, Nat.div_eq_of_lt hlt, Nat.mod_eq_of_lt hlt, digits_zero_value, List.map_replicate]
      rfl
    · have hdiv : v / b < b ^ n := Nat.div_lt_of_lt_mul (pow_succ' b n ▸ hv)
      have hpos : 0 < n := by
        rcases Nat.eq_zero_or_pos n with rfl | hpos
        · rw [zero_add, pow_one] at hv
          omega
        · exact hpos
      rw [Nat.toDigits_of_base_le hb hge, ← ih hpos hdiv, List.leftpad, List.leftpad, List.length_append,
        List.length_singleton, Nat.add_sub_add_right, List.append_assoc]

/-- the next digit enters a machine word of `w` bits from the right -/
theorem shiftLeft_or (w k v d : ℕ) (hd : d < 2 ^ k) :
    (BitVec.ofNat w v <<< k) ||| BitVec.ofNat w d = BitVec.ofNat w (2 ^ k * v + d) := by
  have hshift : (v % 2 ^ w) <<< k % 2 ^ w = v <<< k % 2 ^ w := by
    rw [Nat.shiftLeft_eq, Nat.shiftLeft_eq, Nat.mod_mul_mod]
  have hor : 2 ^ k * v + d = v <<< k ||| d := by
    rw [← Nat.shiftLeft_add_eq_or_of_lt hd, Nat.shiftLeft_eq, mul_comm]
  apply BitVec.eq_of_toNat_eq
  rw [BitVec.toNat_or, BitVec.toNat_shiftLeft, BitVec.toNat_ofNat, BitVec.toNat_ofNat, BitVec.toNat_ofNat, hshift, hor,
    Nat.or_mod_two_pow]

/-! ## Machine integers -/

/-- 32-bit `int` -/
def int (x : ℤ) : ℤ := x.bmod (2 ^ 32)

theorem int_of_small {x : ℤ} (hlow : -2 ^ 31 ≤ x) (hhigh : x < 2 ^ 31) : int x = x :=
  Int.bmod_eq_of_le (by omega) (by omega)

/-- a size that is cut is not greater -/
theorem int_le_natCast (n : ℕ) : int n ≤ n := by
  rw [int, Int.bmod_def]
  split_ifs <;> omega

theorem int_lt (x : ℤ) : int x < 2 ^ 31 := Int.bmod_lt (by norm_num)

/-- the value of an expression of type `int`, whose overflow is undefined -/
def signed (x : ℤ) : Option ℤ := if -2 ^ 31 ≤ x ∧ x < 2 ^ 31 then some x else none

theorem signed_of_small {x : ℤ} (hlow : -2 ^ 31 ≤ x) (hhigh : x < 2 ^ 31) : signed x = some x := if_pos ⟨hlow, hhigh⟩

theorem signed_eq_some {x y : ℤ} : signed x = some y ↔ y = x ∧ -2 ^ 31 ≤ x ∧ x < 2 ^ 31 := by
  rw [signed]
  split_ifs with hx
  · rw [Option.some.injEq]
    exact ⟨fun hxy => ⟨hxy.symm, hx⟩, fun hxy => hxy.1.symm⟩
  · exact iff_of_false (fun hnone => nomatch hnone) fun hxy => hx hxy.2

theorem signed_of_big {x : ℤ} (h : 2 ^ 31 ≤ x) : signed x = none := if_neg fun hx => absurd hx.2 (not_lt.2 h)

/-- the same for `long long` -/
def long (x : ℤ) : Option ℤ := if -2 ^ 63 ≤ x ∧ x < 2 ^ 63 then some x else none

theorem long_of_small {x : ℤ} (hlow : -2 ^ 63 ≤ x) (hhigh : x < 2 ^ 63) : long x = some x := if_pos ⟨hlow, hhigh⟩

/-- what holds of the numbers below 256 holds of every byte -/
theorem forall_byte {P : UInt8 → Prop} (h : ∀ n < 256, P (UInt8.ofNat n)) (c : UInt8) : P c := by
  have hc := h c.toNat c.toNat_lt
  rwa [UInt8.ofNat_toNat] at hc

end InterviewPrep.Numeral
