/-
The UUID parsers and printers of bl-ble/convertUUIDStrtoInt.c and bl-ble/convertUUIDStrtoInt.cpp.

Both parsers collect the hexadecimal digits of a string and put 32 of them together to 128 bits, four at a time: the C one in
one `__uint128_t`, the C++ one in two `uint64_t`. The C loop stops collecting after 32 digits, the C++ loop does not. The C
printer goes over the 16 bytes, the C++ printer over the two halves. A `char` is a byte; a parser that returns -1 or false
gives `none`. An exception in `hexNibble` of the C++ file is `none` too.

- `round_trip`: the printed forms of a value are the same 32 digits, and both parsers read the value back from them, whatever
  letters are made upper case and wherever dashes and spaces are put in;
- `parsers_agree_iff`: the parsers agree on a string exactly if it has at most 32 hexadecimal digits;
- `documented_iff`: they accept a string exactly if it is in the documented language unless it has more than 32 hexadecimal
  digits, or 32 and a character that is no digit, dash or space.
-/
import InterviewPrep.Core.Numeral

namespace InterviewPrep.Uuid

/-! ## Model -/

def isxdigit (c : UInt8) : Bool :=
  ('0'.toUInt8 ≤ c && c ≤ '9'.toUInt8) || ('a'.toUInt8 ≤ c && c ≤ 'f'.toUInt8) || ('A'.toUInt8 ≤ c && c ≤ 'F'.toUInt8)

/-! ### C -/

namespace C

def hexNibble (c : UInt8) : UInt8 :=
  if '0'.toUInt8 ≤ c ∧ c ≤ '9'.toUInt8 then c - '0'.toUInt8
  else if 'a'.toUInt8 ≤ c ∧ c ≤ 'f'.toUInt8 then c - 'a'.toUInt8 + 10
  else if 'A'.toUInt8 ≤ c ∧ c ≤ 'F'.toUInt8 then c - 'A'.toUInt8 + 10
  else 0xFF

/-- the loop that fills `hex`; the string ends at its first NUL -/
def collect (hex : List UInt8) : List UInt8 → List UInt8
  | [] => hex
  | c :: cs => if c ≠ 0 ∧ hex.length < 32 then collect (if isxdigit c then hex ++ [c] else hex) cs else hex

/-- the body of the loop that puts the digits together -/
def shiftIn (out : BitVec 128) (c : UInt8) : Option (BitVec 128) :=
  let nib := hexNibble c
  if nib = 0xFF then none else some ((out <<< 4) ||| nib.toBitVec.setWidth 128)

def parseUuid128 (str : List UInt8) : Option (BitVec 128) :=
  let hex := collect [] str
  if hex.length ≠ 32 then none else hex.foldlM shiftIn 0

def digits : List UInt8 :=
  ['0', '1', '2', '3', '4', '5', '6', '7', '8', '9', 'a', 'b', 'c', 'd', 'e', 'f'].map Char.toUInt8

/-- the loop that fills `bytes`, from the last byte on -/
def bytes : ℕ → BitVec 128 → List (BitVec 8)
  | 0, _ => []
  | i + 1, temp => bytes i (temp >>> 8) ++ [(temp &&& 0xFF).setWidth 8]

def printUuid128 (u : BitVec 128) : List UInt8 :=
  (bytes 16 u).flatMap fun b : BitVec 8 => [digits.getD ((b >>> 4) &&& 0xF).toNat 0, digits.getD (b &&& 0xF).toNat 0]

end C

/-! ### C++ -/

/-- `UUID128` -/
structure UUID128 where
  hi : BitVec 64
  lo : BitVec 64
  deriving DecidableEq

def UUID128.toNat (u : UUID128) : ℕ := u.hi.toNat * 2 ^ 64 + u.lo.toNat

namespace Cpp

def hexNibble (c : UInt8) : Option UInt8 :=
  if '0'.toUInt8 ≤ c ∧ c ≤ '9'.toUInt8 then some (c - '0'.toUInt8)
  else if 'a'.toUInt8 ≤ c ∧ c ≤ 'f'.toUInt8 then some (c - 'a'.toUInt8 + 10)
  else if 'A'.toUInt8 ≤ c ∧ c ≤ 'F'.toUInt8 then some (c - 'A'.toUInt8 + 10)
  else none

/-- the body of the loops that put the digits together -/
def shiftIn (half : BitVec 64) (c : UInt8) : Option (BitVec 64) :=
  (hexNibble c).map fun nib => (half <<< 4) ||| nib.toBitVec.setWidth 64

def parseUUID128 (input : List UInt8) : Option UUID128 :=
  let hex := input.filter isxdigit
  if hex.length ≠ 32 then none
  else do
    let hi ← (hex.take 16).foldlM shiftIn 0
    let lo ← (hex.drop 16).foldlM shiftIn 0
    return ⟨hi, lo⟩

/-- a number in lower case hexadecimal, filled up with zeros to 16 digits -/
def setw16 (half : BitVec 64) : List UInt8 :=
  ((Nat.toDigits 16 half.toNat).leftpad 16 '0').map Char.toUInt8

def uuidToString (u : UUID128) : List UInt8 := setw16 u.hi ++ setw16 u.lo

end Cpp

/-! ### Strings -/

/-- upper case of a letter -/
def toupper (c : UInt8) : UInt8 := if 'a'.toUInt8 ≤ c ∧ c ≤ 'z'.toUInt8 then c - 32 else c

/-- `s` is `p` with some letters made upper case and dashes and spaces put in -/
inductive Decorated : List UInt8 → List UInt8 → Prop
  | nil : Decorated [] []
  | same (c : UInt8) {p s : List UInt8} (h : Decorated p s) : Decorated (c :: p) (c :: s)
  | upper (c : UInt8) {p s : List UInt8} (h : Decorated p s) : Decorated (c :: p) (toupper c :: s)
  | dash {p s : List UInt8} (h : Decorated p s) : Decorated p ('-'.toUInt8 :: s)
  | space {p s : List UInt8} (h : Decorated p s) : Decorated p (' '.toUInt8 :: s)

/-- only digits, dashes and spaces, and 32 digits -/
structure Documented (s : List UInt8) : Prop where
  chars : ∀ c ∈ s, isxdigit c = true ∨ c = '-'.toUInt8 ∨ c = ' '.toUInt8
  digits : s.countP isxdigit = 32

/-! ## Digits -/

/-- the digit for a number below 16 -/
def digitByte (d : ℕ) : UInt8 := (Nat.digitChar d).toUInt8

/-- what `hex_nibble` gives for a digit, as a number -/
def nibble (c : UInt8) : ℕ := (C.hexNibble c).toNat

theorem nibble_lt : ∀ {c : UInt8}, isxdigit c = true → nibble c < 16 :=
  fun {c} => Numeral.forall_byte (P := fun c => isxdigit c = true → nibble c < 16) (by decide +kernel) c

theorem isxdigit_digitByte : ∀ d < 16, isxdigit (digitByte d) = true := by decide

theorem nibble_digitByte : ∀ d < 16, nibble (digitByte d) = d := by decide

theorem isxdigit_toupper : ∀ d < 16, isxdigit (toupper (digitByte d)) = true := by decide

theorem nibble_toupper : ∀ d < 16, nibble (toupper (digitByte d)) = d := by decide

theorem digits_getD : ∀ d < 16, C.digits.getD d 0 = digitByte d := by decide

/-- the two versions of `hex_nibble` give the same for a digit -/
theorem Cpp.hexNibble_eq {c : UInt8} (h : isxdigit c = true) : Cpp.hexNibble c = some (C.hexNibble c) := by
  unfold isxdigit at h
  unfold Cpp.hexNibble C.hexNibble
  split_ifs with hdigit hlower hupper
  · rfl
  · rfl
  · rfl
  · simp [hdigit, hlower, hupper] at h

/-! ## Parsing -/

variable {s p : List UInt8}

/-- a digit is shifted into a word -/
theorem shiftLeft_or_nibble (w v : ℕ) {c : UInt8} (h : isxdigit c = true) :
    (BitVec.ofNat w v <<< 4) ||| (C.hexNibble c).toBitVec.setWidth w = BitVec.ofNat w (16 * v + nibble c) := by
  have hword : (C.hexNibble c).toBitVec.setWidth w = BitVec.ofNat w (nibble c) := (BitVec.ofNat_toNat w _).symm
  rw [hword]
  exact Numeral.shiftLeft_or w 4 v _ (nibble_lt h)

theorem C.shiftIn_digit (v : ℕ) {c : UInt8} (h : isxdigit c = true) :
    C.shiftIn (BitVec.ofNat 128 v) c = some (BitVec.ofNat 128 (16 * v + nibble c)) := by
  have hne : C.hexNibble c ≠ 0xFF := by
    intro heq
    have hlt := nibble_lt h
    rw [nibble, heq] at hlt
    exact absurd hlt (by decide)
  unfold C.shiftIn
  dsimp only
  rw [if_neg hne, shiftLeft_or_nibble 128 v h]

theorem Cpp.shiftIn_digit (v : ℕ) {c : UInt8} (h : isxdigit c = true) :
    Cpp.shiftIn (BitVec.ofNat 64 v) c = some (BitVec.ofNat 64 (16 * v + nibble c)) := by
  rw [Cpp.shiftIn, Cpp.hexNibble_eq h, Option.map_some, shiftLeft_or_nibble 64 v h]

/-- the loop over the digits reads their numeral -/
theorem foldlM_digits {w : ℕ} {f : BitVec w → UInt8 → Option (BitVec w)}
    (hf : ∀ v c, isxdigit c = true → f (BitVec.ofNat w v) c = some (BitVec.ofNat w (16 * v + nibble c)))
    {hex : List UInt8} (hhex : ∀ c ∈ hex, isxdigit c = true) :
    hex.foldlM f 0 = some (BitVec.ofNat w (Numeral.value 16 (hex.map nibble))) := by
  have hgen : ∀ (hex : List UInt8) (v : ℕ), (∀ c ∈ hex, isxdigit c = true) →
      hex.foldlM f (BitVec.ofNat w v) =
        some (BitVec.ofNat w ((hex.map nibble).foldl (fun v d => 16 * v + d) v)) := by
    intro hex
    induction hex with
    | nil => exact fun v _ => rfl
    | cons c hex ih =>
      intro v h
      rw [List.foldlM_cons, hf v c (h c List.mem_cons_self), Option.bind_eq_bind, Option.bind_some,
        ih _ fun c hc => h c (List.mem_cons_of_mem _ hc), List.map_cons, List.foldl_cons]
  exact hgen hex 0 hhex

theorem C.collect_eq {hex cs : List UInt8} (hlength : hex.length ≤ 32) (hnul : 0 ∉ cs) :
    C.collect hex cs = (hex ++ cs.filter isxdigit).take 32 := by
  induction cs generalizing hex with
  | nil => rw [C.collect, List.filter_nil, List.append_nil, List.take_of_length_le hlength]
  | cons c cs ih =>
    have hc : c ≠ 0 := fun h => hnul (h ▸ List.mem_cons_self)
    have hcs : 0 ∉ cs := fun h => hnul (List.mem_cons_of_mem c h)
    rw [C.collect]
    by_cases hroom : hex.length < 32
    · rw [if_pos ⟨hc, hroom⟩]
      cases hx : isxdigit c with
      | true =>
        rw [if_pos rfl, ih (by rw [List.length_append, List.length_singleton]; omega) hcs, List.filter_cons_of_pos hx,
          List.append_assoc, List.singleton_append]
      | false => rw [if_neg Bool.false_ne_true, ih hlength hcs, List.filter_cons_of_neg (by rw [hx]; decide)]
    · rw [if_neg fun h => hroom h.2, List.take_append_of_le_length (by omega), List.take_of_length_le hlength]

/-- the C parser reads the first 32 digits -/
theorem C.parseUuid128_eq (hnul : 0 ∉ s) :
    C.parseUuid128 s =
      if 32 ≤ s.countP isxdigit then
        some (BitVec.ofNat 128 (Numeral.value 16 (((s.filter isxdigit).take 32).map nibble)))
      else none := by
  have hlength : ((s.filter isxdigit).take 32).length = min 32 (s.countP isxdigit) := by
    rw [List.length_take, List.countP_eq_length_filter]
  unfold C.parseUuid128
  dsimp only
  rw [C.collect_eq (Nat.zero_le _) hnul, List.nil_append, hlength]
  by_cases h : 32 ≤ s.countP isxdigit
  · rw [if_neg (by omega), if_pos h]
    exact foldlM_digits (fun v c => C.shiftIn_digit v) fun c hc => (List.mem_filter.1 (List.mem_of_mem_take hc)).2
  · rw [if_pos (by omega), if_neg h]

/-- the C++ parser reads 16 digits and another 16 -/
theorem Cpp.parseUUID128_eq :
    Cpp.parseUUID128 s =
      if s.countP isxdigit = 32 then
        some ⟨BitVec.ofNat 64 (Numeral.value 16 (((s.filter isxdigit).take 16).map nibble)),
          BitVec.ofNat 64 (Numeral.value 16 (((s.filter isxdigit).drop 16).map nibble))⟩
      else none := by
  have hdigit : ∀ c ∈ s.filter isxdigit, isxdigit c = true := fun c hc => (List.mem_filter.1 hc).2
  unfold Cpp.parseUUID128
  dsimp only
  rw [List.countP_eq_length_filter,
    foldlM_digits (fun v c => Cpp.shiftIn_digit v) fun c hc => hdigit c (List.mem_of_mem_take hc),
    foldlM_digits (fun v c => Cpp.shiftIn_digit v) fun c hc => hdigit c (List.mem_of_mem_drop hc)]
  by_cases h : (s.filter isxdigit).length = 32
  · rw [if_neg (not_not.2 h), if_pos h]
    rfl
  · rw [if_pos h, if_neg h]

/-- the two halves together -/
theorem toNat_halves {ds : List ℕ} (hlength : ds.length = 32) (hds : ∀ d ∈ ds, d < 16) :
    UUID128.toNat ⟨BitVec.ofNat 64 (Numeral.value 16 (ds.take 16)), BitVec.ofNat 64 (Numeral.value 16 (ds.drop 16))⟩ =
      Numeral.value 16 ds := by
  have hhi : Numeral.value 16 (ds.take 16) < 2 ^ 64 := by
    have h := Numeral.value_lt fun d hd => hds d (List.mem_of_mem_take (i := 16) hd)
    rwa [List.length_take, hlength] at h
  have hlo : Numeral.value 16 (ds.drop 16) < 2 ^ 64 := by
    have h := Numeral.value_lt fun d hd => hds d (List.mem_of_mem_drop (i := 16) hd)
    rwa [List.length_drop, hlength] at h
  have happend : Numeral.value 16 (ds.take 16 ++ ds.drop 16) = _ := Numeral.value_append
  rw [List.take_append_drop, List.length_drop, hlength] at happend
  have hpow : 16 ^ (32 - 16) = 2 ^ 64 := by norm_num
  rw [happend, hpow, UUID128.toNat, BitVec.toNat_ofNat, BitVec.toNat_ofNat, Nat.mod_eq_of_lt hhi, Nat.mod_eq_of_lt hlo]

/-- on 32 digits the parsers give the same value -/
theorem same_value (hnul : 0 ∉ s) (h : s.countP isxdigit = 32) :
    ∃ u v, C.parseUuid128 s = some u ∧ Cpp.parseUUID128 s = some v ∧
      u.toNat = Numeral.value 16 ((s.filter isxdigit).map nibble) ∧ v.toNat = u.toNat := by
  have hlength : (s.filter isxdigit).length = 32 := by rw [← List.countP_eq_length_filter, h]
  have hds : ∀ d ∈ (s.filter isxdigit).map nibble, d < 16 := by
    intro d hd
    obtain ⟨c, hc, rfl⟩ := List.mem_map.1 hd
    exact nibble_lt (List.mem_filter.1 hc).2
  have hlt : Numeral.value 16 ((s.filter isxdigit).map nibble) < 2 ^ 128 := by
    have hlt := Numeral.value_lt hds
    rwa [List.length_map, hlength] at hlt
  have hvalue : (BitVec.ofNat 128 (Numeral.value 16 ((s.filter isxdigit).map nibble))).toNat =
      Numeral.value 16 ((s.filter isxdigit).map nibble) := by
    rw [BitVec.toNat_ofNat, Nat.mod_eq_of_lt hlt]
  refine ⟨_, _, ?_, (Cpp.parseUUID128_eq.trans (if_pos h)), hvalue, ?_⟩
  · rw [C.parseUuid128_eq hnul, if_pos h.ge, List.take_of_length_le hlength.le]
  · rw [hvalue, List.map_take, List.map_drop]
    exact toNat_halves (by rw [List.length_map, hlength]) hds

/-! ## Printing -/

theorem bytes_toNat (n : ℕ) (u : BitVec 128) : (C.bytes n u).map BitVec.toNat = Numeral.digits (16 * 16) n u.toNat := by
  induction n generalizing u with
  | zero => rfl
  | succ n ih =>
    have hlow : ((u &&& 0xFF).setWidth 8 : BitVec 8).toNat = u.toNat % (16 * 16) := by
      have hmask : (0xFF : BitVec 128).toNat = 2 ^ 8 - 1 := rfl
      rw [BitVec.toNat_setWidth, BitVec.toNat_and, hmask, Nat.and_two_pow_sub_one_eq_mod, Nat.mod_mod]
    rw [C.bytes, List.map_append, ih, List.map_singleton, hlow, Numeral.digits, BitVec.toNat_ushiftRight,
      Nat.shiftRight_eq_div_pow]

/-- the two characters of a byte -/
theorem byte_digits (b : BitVec 8) :
    [C.digits.getD ((b >>> 4) &&& 0xF).toNat 0, C.digits.getD (b &&& 0xF).toNat 0] =
      [b.toNat / 16, b.toNat % 16].map digitByte := by
  have hlt := b.isLt
  have hmask : (0xF : BitVec 8).toNat = 2 ^ 4 - 1 := rfl
  have hhigh : ((b >>> 4) &&& 0xF).toNat = b.toNat / 16 := by
    rw [BitVec.toNat_and, hmask, Nat.and_two_pow_sub_one_eq_mod, BitVec.toNat_ushiftRight, Nat.shiftRight_eq_div_pow]
    omega
  have hlow : (b &&& 0xF).toNat = b.toNat % 16 := by
    rw [BitVec.toNat_and, hmask, Nat.and_two_pow_sub_one_eq_mod]
  rw [hhigh, hlow, digits_getD _ (by omega), digits_getD _ (by omega)]
  rfl

/-- the C printer writes a numeral of 32 digits -/
theorem C.printUuid128_eq (u : BitVec 128) : C.printUuid128 u = (Numeral.digits 16 32 u.toNat).map digitByte := by
  have hbyte : (fun b : BitVec 8 => [C.digits.getD ((b >>> 4) &&& 0xF).toNat 0, C.digits.getD (b &&& 0xF).toNat 0]) =
      fun b => [b.toNat / 16, b.toNat % 16].map digitByte := funext byte_digits
  have hsq := Numeral.digits_sq (b := 16) 16 u.toNat
  rw [← bytes_toNat, List.flatMap_map] at hsq
  rw [C.printUuid128, hbyte, ← List.map_flatMap, hsq]

theorem Cpp.setw16_eq (half : BitVec 64) : Cpp.setw16 half = (Numeral.digits 16 16 half.toNat).map digitByte := by
  have hlt : half.toNat < 16 ^ 16 := half.isLt.trans_eq (by norm_num)
  rw [Cpp.setw16, Numeral.toDigits_leftpad (by decide) (by decide) hlt, List.map_map]
  rfl

/-- the C++ printer writes the same numeral -/
theorem Cpp.uuidToString_eq (v : UUID128) : Cpp.uuidToString v = (Numeral.digits 16 32 v.toNat).map digitByte := by
  have hlo := v.lo.isLt
  have hpow : 16 ^ 16 = 2 ^ 64 := by norm_num
  have hdiv : v.toNat / 16 ^ 16 = v.hi.toNat := by
    rw [hpow, UUID128.toNat]
    omega
  have hmod : v.toNat % 16 ^ 16 = v.lo.toNat := by
    rw [hpow, UUID128.toNat]
    omega
  have hcut := Numeral.digits_add (b := 16) 16 16 v.toNat
  rw [hdiv, hmod] at hcut
  rw [Cpp.uuidToString, Cpp.setw16_eq, Cpp.setw16_eq, ← List.map_append, ← hcut]

/-! ## Results -/

/-- what is put in is no digit -/
theorem Decorated.filter {ds : List ℕ} (hds : ∀ d ∈ ds, d < 16) (h : Decorated (ds.map digitByte) s) :
    (s.filter isxdigit).map nibble = ds := by
  generalize hp : ds.map digitByte = p at h
  induction h generalizing ds with
  | nil => exact (List.map_eq_nil_iff.1 hp).symm
  | same c h ih =>
    obtain ⟨d, ds, rfl, rfl, rfl⟩ := List.map_eq_cons_iff.1 hp
    have hd := hds d List.mem_cons_self
    rw [List.filter_cons_of_pos (isxdigit_digitByte d hd), List.map_cons, nibble_digitByte d hd,
      ih (fun d h => hds d (List.mem_cons_of_mem _ h)) rfl]
  | upper c h ih =>
    obtain ⟨d, ds, rfl, rfl, rfl⟩ := List.map_eq_cons_iff.1 hp
    have hd := hds d List.mem_cons_self
    rw [List.filter_cons_of_pos (isxdigit_toupper d hd), List.map_cons, nibble_toupper d hd,
      ih (fun d h => hds d (List.mem_cons_of_mem _ h)) rfl]
  | dash h ih => exact ih hds hp
  | space h ih => exact ih hds hp

/-- digits stay digits, and only dashes and spaces are put in -/
theorem Decorated.chars {ds : List ℕ} (hds : ∀ d ∈ ds, d < 16) (h : Decorated (ds.map digitByte) s) :
    ∀ c ∈ s, isxdigit c = true ∨ c = '-'.toUInt8 ∨ c = ' '.toUInt8 := by
  generalize hp : ds.map digitByte = p at h
  induction h generalizing ds with
  | nil => exact fun c hc => absurd hc List.not_mem_nil
  | same c h ih =>
    obtain ⟨d, ds, rfl, rfl, rfl⟩ := List.map_eq_cons_iff.1 hp
    exact List.forall_mem_cons.2 ⟨.inl (isxdigit_digitByte d (hds d List.mem_cons_self)),
      ih (fun d h => hds d (List.mem_cons_of_mem _ h)) rfl⟩
  | upper c h ih =>
    obtain ⟨d, ds, rfl, rfl, rfl⟩ := List.map_eq_cons_iff.1 hp
    exact List.forall_mem_cons.2 ⟨.inl (isxdigit_toupper d (hds d List.mem_cons_self)),
      ih (fun d h => hds d (List.mem_cons_of_mem _ h)) rfl⟩
  | dash h ih => exact List.forall_mem_cons.2 ⟨.inr (.inl rfl), ih hds hp⟩
  | space h ih => exact List.forall_mem_cons.2 ⟨.inr (.inr rfl), ih hds hp⟩

theorem Decorated.refl (p : List UInt8) : Decorated p p := by
  induction p with
  | nil => exact .nil
  | cons c p ih => exact .same c ih

theorem digitByte_mem : ∀ d < 16, digitByte d ∈ C.digits := by decide

/-- **Round trip.** The C printer writes a value in 32 lower case digits, and the C++ printer writes the same. Each parser reads
the value back from every string that comes from them by making letters upper case and putting in dashes and spaces. -/
theorem round_trip (u : BitVec 128) :
    (C.printUuid128 u).length = 32 ∧ (∀ c ∈ C.printUuid128 u, c ∈ C.digits) ∧
    (∀ v : UUID128, v.toNat = u.toNat → Cpp.uuidToString v = C.printUuid128 u) ∧
    ∀ s, Decorated (C.printUuid128 u) s →
      C.parseUuid128 s = some u ∧ ∃ v, Cpp.parseUUID128 s = some v ∧ v.toNat = u.toNat := by
  have hds : ∀ d ∈ Numeral.digits 16 32 u.toNat, d < 16 := fun d hd => Numeral.lt_of_mem_digits (by decide) hd
  refine ⟨?_, ?_, ?_, ?_⟩
  · rw [C.printUuid128_eq, List.length_map, Numeral.length_digits]
  · intro c hc
    rw [C.printUuid128_eq] at hc
    obtain ⟨d, hd, rfl⟩ := List.mem_map.1 hc
    exact digitByte_mem d (hds d hd)
  · intro v hv
    rw [Cpp.uuidToString_eq, C.printUuid128_eq, hv]
  · intro s hs
    rw [C.printUuid128_eq] at hs
    have hfilter := hs.filter hds
    have hcount : s.countP isxdigit = 32 := by
      rw [List.countP_eq_length_filter, ← List.length_map (f := nibble), hfilter, Numeral.length_digits]
    have hnul : 0 ∉ s := fun h => absurd (hs.chars hds 0 h) (by decide)
    obtain ⟨w, v, hw, hv, hvalue, hsame⟩ := same_value hnul hcount
    have hpow : 16 ^ 32 = 2 ^ 128 := by norm_num
    obtain rfl : w = u := by
      apply BitVec.eq_of_toNat_eq
      rw [hvalue, hfilter, Numeral.value_digits, hpow, Nat.mod_eq_of_lt u.isLt]
    exact ⟨hw, v, hv, hsame⟩

/-- a value whose printed form starts with two letters -/
def sample : BitVec 128 := 0xab000000000000000000000000000001

/-- `A-b ` and the rest of the printed form -/
theorem round_trip_sample :
    C.parseUuid128 ('A'.toUInt8 :: '-'.toUInt8 :: 'b'.toUInt8 :: ' '.toUInt8 :: (C.printUuid128 sample).drop 2) =
      some sample := by
  have hprinted : C.printUuid128 sample = 'a'.toUInt8 :: 'b'.toUInt8 :: (C.printUuid128 sample).drop 2 := by decide +kernel
  have hdecorated : Decorated (C.printUuid128 sample)
      ('A'.toUInt8 :: '-'.toUInt8 :: 'b'.toUInt8 :: ' '.toUInt8 :: (C.printUuid128 sample).drop 2) := by
    nth_rewrite 1 [hprinted]
    exact .upper _ (.dash (.same _ (.space (.refl _))))
  exact ((round_trip sample).2.2.2 _ hdecorated).1

/-- both parsers accept, with the same value, or neither does -/
structure Agree (s : List UInt8) : Prop where
  accept : (C.parseUuid128 s).isSome = true ↔ (Cpp.parseUUID128 s).isSome = true
  value : ∀ u v, C.parseUuid128 s = some u → Cpp.parseUUID128 s = some v → v.toNat = u.toNat

theorem C.isSome_iff (hnul : 0 ∉ s) : (C.parseUuid128 s).isSome = true ↔ 32 ≤ s.countP isxdigit := by
  rw [C.parseUuid128_eq hnul]
  split_ifs with h
  · exact iff_of_true rfl h
  · exact iff_of_false (by decide) h

theorem Cpp.isSome_iff : (Cpp.parseUUID128 s).isSome = true ↔ s.countP isxdigit = 32 := by
  rw [Cpp.parseUUID128_eq]
  split_ifs with h
  · exact iff_of_true rfl h
  · exact iff_of_false (by decide) h

/-- **The two parsers.** They agree on a string without NUL if and only if it has at most 32 hexadecimal digits. -/
theorem parsers_agree_iff (s : List UInt8) (hnul : 0 ∉ s) : Agree s ↔ s.countP isxdigit ≤ 32 := by
  constructor
  · intro h
    have haccept := h.accept
    rw [C.isSome_iff hnul, Cpp.isSome_iff] at haccept
    by_contra hlong
    have := haccept.1 (by omega)
    omega
  · intro h
    refine ⟨?_, ?_⟩
    · rw [C.isSome_iff hnul, Cpp.isSome_iff]
      omega
    · intro u v hu hv
      have hcount := Cpp.isSome_iff.1 (Option.isSome_iff_exists.2 ⟨v, hv⟩)
      obtain ⟨u', v', hu', hv', -, hsame⟩ := same_value hnul hcount
      obtain rfl : u' = u := Option.some.inj (hu'.symm.trans hu)
      obtain rfl : v' = v := Option.some.inj (hv'.symm.trans hv)
      exact hsame

theorem parsers_agree_zeros : Agree (List.replicate 32 '0'.toUInt8) :=
  (parsers_agree_iff _ (by decide)).2 (by decide)

/-- **One digit too many.** The C parser accepts 33 digits, the C++ parser does not. -/
theorem overlong_accepted :
    C.parseUuid128 (List.replicate 33 '0'.toUInt8) = some 0 ∧ Cpp.parseUUID128 (List.replicate 33 '0'.toUInt8) = none ∧
    ¬Agree (List.replicate 33 '0'.toUInt8) := by
  have hC : C.parseUuid128 (List.replicate 33 '0'.toUInt8) = some 0 := by decide +kernel
  have hCpp : Cpp.parseUUID128 (List.replicate 33 '0'.toUInt8) = none := by decide +kernel
  refine ⟨hC, hCpp, fun h => ?_⟩
  have haccept := h.accept
  rw [hC, hCpp] at haccept
  exact absurd (haccept.1 rfl) (by decide)

/-- **The documented language.** Both parsers accept a string without NUL exactly if it is documented, if and only if it has
fewer than 32 hexadecimal digits, or it has 32 and all other characters are dashes and spaces. -/
theorem documented_iff (s : List UInt8) (hnul : 0 ∉ s) :
    (((C.parseUuid128 s).isSome = true ↔ Documented s) ∧ ((Cpp.parseUUID128 s).isSome = true ↔ Documented s)) ↔
      s.countP isxdigit < 32 ∨
        (s.countP isxdigit = 32 ∧ ∀ c ∈ s, isxdigit c = false → c = '-'.toUInt8 ∨ c = ' '.toUInt8) := by
  rw [C.isSome_iff hnul, Cpp.isSome_iff]
  constructor
  · intro h
    obtain ⟨hC, -⟩ := h
    rcases lt_or_ge (s.countP isxdigit) 32 with hshort | hlong
    · exact .inl hshort
    · obtain ⟨hchars, hdigits⟩ := hC.1 hlong
      refine .inr ⟨hdigits, fun c hc hx => (hchars c hc).resolve_left ?_⟩
      rw [hx]
      exact Bool.false_ne_true
  · intro h
    rcases h with hshort | ⟨hdigits, hchars⟩
    · have hout : ¬Documented s := fun h => hshort.ne h.digits
      exact ⟨iff_of_false (by omega) hout, iff_of_false (by omega) hout⟩
    · have hin : Documented s := by
        refine ⟨fun c hc => ?_, hdigits⟩
        cases hx : isxdigit c with
        | true => exact .inl rfl
        | false => exact .inr (hchars c hc hx)
      exact ⟨iff_of_true hdigits.ge hin, iff_of_true hdigits hin⟩

theorem documented_zeros :
    ((C.parseUuid128 (List.replicate 32 '0'.toUInt8)).isSome = true ↔ Documented (List.replicate 32 '0'.toUInt8)) ∧
    ((Cpp.parseUUID128 (List.replicate 32 '0'.toUInt8)).isSome = true ↔ Documented (List.replicate 32 '0'.toUInt8)) :=
  (documented_iff _ (by decide)).2 (.inr (by decide +kernel))

/-- **Other characters.** Both parsers accept 32 digits with an `x` before them. -/
theorem foreign_accepted :
    (C.parseUuid128 ('x'.toUInt8 :: List.replicate 32 '0'.toUInt8)).isSome = true ∧
    (Cpp.parseUUID128 ('x'.toUInt8 :: List.replicate 32 '0'.toUInt8)).isSome = true ∧
    ¬Documented ('x'.toUInt8 :: List.replicate 32 '0'.toUInt8) :=
  ⟨by decide +kernel, by decide +kernel, fun h => absurd (h.chars 'x'.toUInt8 List.mem_cons_self) (by decide)⟩

end InterviewPrep.Uuid
