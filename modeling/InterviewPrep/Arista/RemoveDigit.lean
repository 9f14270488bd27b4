/-
The smallest number that is left when one digit is removed: arista/removeOneDigitToMin.cpp and removeOneDigitToMin.c.

Both versions remove the first digit that is greater than the one after it, or the last one, and then the leading zeros; the one
in C does so in place, in a buffer that ends its string with a zero byte. Lengths and indices are `int`s, which a length is
cut to; an access outside the string or the buffer, and a loop that does not end, are `none`.

- `cut` is the string without that digit, and `cut_le` says that no other digit leaves a smaller one;
- `removeOneDigitToMin_least`: the string version returns the numeral of the least number, for all strings of fewer than 2 ^ 31
  digits, and the version in C leaves the same string in its buffer. It writes two bytes in any case;
- `ones_lost`: 2 ^ 31 ones are taken for a string of at most one digit.
-/
import InterviewPrep.Core.Text

namespace InterviewPrep.Arista.RemoveDigit

open Numeral (int int_of_small signed signed_of_small)
open Text (Chars charAt charAt_natCast number strip)

/-! ## Model -/

/-- `for (int i = 0; i < n - 1; ++i)` in both versions: the first digit that is greater than the next -/
def findDescent (num : Chars) (n : ℤ) : ℕ → ℤ → Option (Option ℤ)
  | 0, _ => none
  | fuel + 1, i =>
    if i < n - 1 then do
      let a ← charAt num i
      let b ← charAt num (i + 1)
      if a > b then some (some i) else findDescent num n fuel (i + 1)
    else some none

def removeOneDigitToMin (num : Chars) : Option Chars :=
  let n := int num.length
  if n ≤ 1 then some ['0']
  else do
    let removed ← findDescent num n (num.length + 1) 0
    let num := match removed with
      | some i => num.eraseIdx i.toNat
      | none => num.dropLast
    match num.findIdx? (· ≠ '0') with
    | none => some ['0']
    | some first_non_zero => some (num.drop first_non_zero)

/-- the byte that ends a string -/
def nul : Char := Char.ofNat 0

/-- the string in a buffer -/
def cString (buf : Chars) : Chars := buf.takeWhile (· ≠ nul)

/-- `strlen(&buf[i])` -/
def strlen (buf : Chars) (i : ℕ) : Option ℕ := (buf.drop i).findIdx? (· = nul)

/-- `buf[i] = c` -/
def setChar (buf : Chars) (i : ℤ) (c : Char) : Option Chars :=
  if 0 ≤ i ∧ i < buf.length then some (buf.set i.toNat c) else none

/-- `memmove(&buf[dst], &buf[src], n)` -/
def memmove (buf : Chars) (dst src n : ℕ) : Option Chars :=
  if dst + n ≤ buf.length ∧ src + n ≤ buf.length then
    some (buf.take dst ++ (buf.drop src).take n ++ buf.drop (dst + n))
  else none

/-- `while (num[start] == '0' && num[start + 1] != '\0')` -/
def skipZeros (buf : Chars) : ℕ → ℤ → Option ℤ
  | 0, _ => none
  | fuel + 1, start => do
    let a ← charAt buf start
    if a = '0' then
      let next ← signed (start + 1)
      let b ← charAt buf next
      if b ≠ nul then skipZeros buf fuel next else some start
    else some start

/-- the digit is removed -/
def removeInPlace (buf : Chars) (n : ℤ) : Option Chars := do
  let found ← findDescent buf n (buf.length + 1) 0
  match found with
  | some i => memmove buf i.toNat (i + 1).toNat (n - i).toNat
  | none => setChar buf (n - 1) nul

/-- the leading zeros are removed -/
def stripInPlace (buf : Chars) : Option Chars := do
  let start ← skipZeros buf (buf.length + 1) 0
  if start > 0 then
    let len ← strlen buf start.toNat
    memmove buf 0 start.toNat (len + 1)
  else some buf

/-- the buffer afterwards -/
def removeOneToMin (buf : Chars) : Option Chars := do
  let len ← strlen buf 0
  let n := int len
  if n ≤ 1 then
    let buf ← setChar buf 0 '0'
    setChar buf 1 nul
  else
    let buf ← removeInPlace buf n
    stripInPlace buf

/-! ## Which digit -/

section Cut

variable {α : Type} [LinearOrder α]

/-- without the first element that is greater than the next, or else the last one -/
def cut : List α → List α
  | [] => []
  | [_] => []
  | x :: y :: l => if x > y then y :: l else x :: cut (y :: l)

/-- the index of that element -/
def cutIndex : List α → ℕ
  | [] => 0
  | [_] => 0
  | x :: y :: l => if x > y then 0 else cutIndex (y :: l) + 1

variable {l : List α}

theorem cut_eq_eraseIdx (l : List α) : cut l = l.eraseIdx (cutIndex l) := by
  induction l with
  | nil => rfl
  | cons x l ih =>
    cases l with
    | nil => rfl
    | cons y l =>
      rw [cut, cutIndex]
      split_ifs
      · rfl
      · rw [List.eraseIdx_cons_succ, ih]

theorem cutIndex_lt (hl : l ≠ []) : cutIndex l < l.length := by
  induction l with
  | nil => exact absurd rfl hl
  | cons x l ih =>
    cases l with
    | nil => exact Nat.one_pos
    | cons y l =>
      rw [cutIndex]
      split_ifs
      · exact Nat.succ_pos _
      · exact Nat.succ_lt_succ (ih (List.cons_ne_nil y l))

/-- no other removal leaves a smaller list -/
theorem cut_le (i : ℕ) (hi : i < l.length) : cut l ≤ l.eraseIdx i := by
  induction l generalizing i with
  | nil => cases hi
  | cons x l ih =>
    cases l with
    | nil =>
      obtain rfl : i = 0 := Nat.lt_one_iff.1 hi
      exact le_rfl
    | cons y l =>
      rw [cut]
      split_ifs with hxy
      · cases i with
        | zero => exact le_rfl
        | succ i =>
          rw [List.eraseIdx_cons_succ]
          exact (List.cons_lt_cons_iff.2 (Or.inl hxy)).le
      · cases i with
        | succ i =>
          rw [List.eraseIdx_cons_succ]
          exact List.cons_le_cons x (ih i (Nat.lt_of_succ_lt_succ hi))
        | zero =>
          -- the first element is not greater than the second, which comes to its place
          rw [List.eraseIdx_cons_zero]
          rcases (not_lt.1 hxy).lt_or_eq with hlt | rfl
          · exact (List.cons_lt_cons_iff.2 (Or.inl hlt)).le
          · exact List.cons_le_cons x (ih 0 (Nat.succ_pos _))

end Cut

/-! ## The search -/

variable {num rest : Chars} {fuel : ℕ}

/-- from a place in the string on, whatever follows it -/
theorem findDescent_from (w l t : Chars) (hfuel : l.length < fuel) :
    findDescent (w ++ l ++ t) (w ++ l).length fuel w.length =
      some (if cutIndex l + 1 < l.length then some ((w.length + cutIndex l : ℕ) : ℤ) else none) := by
  induction fuel generalizing w l with
  | zero => cases hfuel
  | succ fuel ih =>
    rw [findDescent, List.length_append]
    cases l with
    | nil =>
      rw [if_neg (by rw [List.length_nil]; omega)]
      rfl
    | cons x l =>
      cases l with
      | nil =>
        rw [if_neg (by rw [List.length_singleton]; omega)]
        rfl
      | cons y l =>
        have hx : charAt (w ++ x :: y :: l ++ t) w.length = some x := by
          rw [charAt_natCast]
          simp
        have hy : charAt (w ++ x :: y :: l ++ t) (w.length + 1) = some y := by
          rw [← Nat.cast_succ, charAt_natCast]
          simp
        rw [if_pos (by simp only [List.length_cons]; omega), hx, hy]
        simp only [Option.bind_eq_bind, Option.bind_some]
        by_cases hxy : x > y
        · have hindex : cutIndex (x :: y :: l) = 0 := if_pos hxy
          rw [if_pos hxy, hindex, if_pos (by simp only [List.length_cons]; omega), Nat.add_zero]
        · have hindex : cutIndex (x :: y :: l) = cutIndex (y :: l) + 1 := if_neg hxy
          have hnext := ih (w ++ [x]) (y :: l) (Nat.lt_of_succ_lt_succ hfuel)
          have hlen : (w ++ [x]).length = w.length + 1 := List.length_append
          rw [List.append_assoc w, List.singleton_append, List.length_append, hlen, Nat.cast_succ] at hnext
          have hcount : (x :: y :: l).length = (y :: l).length + 1 := rfl
          rw [if_neg hxy, hnext, hindex, hcount, add_assoc w.length, add_comm 1]
          simp only [Nat.add_lt_add_iff_right]

/-- removing that digit, or the last one if there is none, is `cut` -/
theorem exists_cut (hnum : num ≠ []) :
    ∃ a x b, num = a ++ x :: b ∧ cut num = a ++ b ∧ a.length = cutIndex num := by
  have hlt := cutIndex_lt hnum
  refine ⟨num.take (cutIndex num), num[cutIndex num], num.drop (cutIndex num + 1), ?_, ?_, ?_⟩
  · rw [List.getElem_cons_drop, List.take_append_drop]
  · rw [cut_eq_eraseIdx, List.eraseIdx_eq_take_drop_succ]
  · rw [List.length_take, min_eq_left hlt.le]

theorem strip_eq (s : Chars) :
    (match s.findIdx? (· ≠ '0') with
      | none => some ['0']
      | some first_non_zero => some (s.drop first_non_zero)) = some (strip s) := by
  induction s with
  | nil => rfl
  | cons c s ih =>
    rw [List.findIdx?_cons]
    rcases eq_or_ne c '0' with rfl | hc
    · rw [Text.strip_zero, ← ih]
      cases hidx : s.findIdx? (· ≠ '0') <;> simp
    · rw [Text.strip_of_ne hc]
      simp [hc]

/-- the search in a string, and in a buffer with the string -/
theorem findDescent_eq (num rest : Chars) (hfuel : num.length < fuel) :
    findDescent (num ++ rest) num.length fuel 0 =
      some (if cutIndex num + 1 < num.length then some (cutIndex num : ℤ) else none) := by
  have hsearch := findDescent_from [] num rest hfuel
  rwa [List.nil_append, List.length_nil, Nat.cast_zero, Nat.zero_add] at hsearch

theorem removeOneDigitToMin_eq (hlen : num.length < 2 ^ 31) : removeOneDigitToMin num = some (strip (cut num)) := by
  have hint : int num.length = num.length := int_of_small (by omega) (by omega)
  unfold removeOneDigitToMin
  rw [hint]
  rcases Nat.lt_or_ge 1 num.length with hlong | hshort
  · have hne : num ≠ [] := List.length_pos_iff.1 (by omega)
    have hlt := cutIndex_lt hne
    have hsearch := findDescent_eq num [] (Nat.lt_succ_self num.length)
    rw [List.append_nil] at hsearch
    rw [if_neg (by omega), hsearch]
    by_cases hdescent : cutIndex num + 1 < num.length
    · rw [if_pos hdescent, cut_eq_eraseIdx]
      exact strip_eq (num.eraseIdx (cutIndex num))
    · have hlast : cutIndex num + 1 = num.length := by omega
      rw [if_neg hdescent, cut_eq_eraseIdx, List.eraseIdx_eq_dropLast hlast]
      exact strip_eq num.dropLast
  · rw [if_pos (by omega)]
    rcases num with _ | ⟨x, _ | ⟨y, l⟩⟩
    · rfl
    · rfl
    · simp only [List.length_cons] at hshort
      omega

/-! ## In place -/

theorem strlen_eq {w : Chars} (hs : ∀ c ∈ num, c ≠ nul) : strlen (w ++ (num ++ nul :: rest)) w.length = some num.length := by
  rw [strlen, List.drop_left, List.findIdx?_append]
  have hnone : num.findIdx? (· = nul) = none := by
    rw [List.findIdx?_eq_none_iff]
    intro c hc
    simpa using hs c hc
  rw [hnone, List.findIdx?_cons]
  simp

theorem cString_eq (hs : ∀ c ∈ num, c ≠ nul) : cString (num ++ nul :: rest) = num := by
  rw [cString, List.takeWhile_append_of_pos (by simpa using hs), List.takeWhile_cons]
  simp

/-- the digit is removed by moving up what follows, with the final zero byte -/
theorem memmove_up (a : Chars) (x : Char) (b rest : Chars) :
    memmove (a ++ x :: b ++ nul :: rest) a.length (a.length + 1) (b.length + 1) = some (a ++ b ++ nul :: nul :: rest) := by
  have hsource : (a ++ x :: b ++ nul :: rest).drop (a.length + 1) = b ++ nul :: rest := by
    have hlen : (a ++ [x]).length = a.length + 1 := List.length_append
    rw [List.append_assoc, List.cons_append, List.append_cons a, ← hlen, List.drop_left]
  have hkept : (a ++ x :: b ++ nul :: rest).drop (a.length + (b.length + 1)) = nul :: rest := by
    have hlen : (a ++ x :: b).length = a.length + (b.length + 1) := List.length_append
    rw [← hlen, List.drop_left]
  have hmoved : (b ++ nul :: rest).take (b.length + 1) = b ++ [nul] := by
    have hlen : (b ++ [nul]).length = b.length + 1 := List.length_append
    rw [List.append_cons, ← hlen, List.take_left]
  rw [memmove, if_pos, hsource, hkept, hmoved, List.append_assoc a, List.take_left]
  · simp
  · simp only [List.length_append, List.length_cons]
    omega

/-- the last digit is overwritten -/
theorem setChar_last (a : Chars) (x : Char) (rest : Chars) :
    setChar (a ++ [x] ++ nul :: rest) a.length nul = some (a ++ nul :: nul :: rest) := by
  rw [setChar, if_pos, Int.toNat_natCast, List.append_assoc, List.set_append_right _ _ le_rfl, Nat.sub_self]
  · rfl
  · simp only [List.length_append, List.length_cons]
    omega

/-- the zeros at the front -/
theorem skipZeros_from (w t rest : Chars) (ht : t ≠ []) (hs : ∀ c ∈ t, c ≠ nul) (hlen : (w ++ t).length < 2 ^ 31)
    (hfuel : t.length < fuel) :
    ∃ k, t = List.replicate k '0' ++ strip t ∧
      skipZeros (w ++ t ++ nul :: rest) fuel w.length = some ((w.length + k : ℕ) : ℤ) := by
  induction fuel generalizing w t with
  | zero => cases hfuel
  | succ fuel ih =>
    cases t with
    | nil => exact absurd rfl ht
    | cons c t =>
      rw [List.length_append, List.length_cons] at hlen
      have hc : charAt (w ++ c :: t ++ nul :: rest) w.length = some c := by
        rw [charAt_natCast]
        simp
      rw [skipZeros, hc]
      simp only [Option.bind_eq_bind, Option.bind_some]
      rcases eq_or_ne c '0' with rfl | hne
      · rw [if_pos rfl, signed_of_small (by omega) (by omega), Option.bind_some]
        cases t with
        | nil =>
          have hnext : charAt (w ++ ['0'] ++ nul :: rest) (w.length + 1) = some nul := by
            rw [← Nat.cast_succ, charAt_natCast]
            simp
          refine ⟨0, rfl, ?_⟩
          rw [hnext, Option.bind_some, if_neg (not_not.2 rfl), Nat.add_zero]
        | cons d t =>
          have hnext : charAt (w ++ '0' :: d :: t ++ nul :: rest) (w.length + 1) = some d := by
            rw [← Nat.cast_succ, charAt_natCast]
            simp
          rw [List.forall_mem_cons] at hs
          obtain ⟨k, hk, hloop⟩ := ih (w ++ ['0']) (d :: t) (List.cons_ne_nil d t) hs.2
            (by simp only [List.length_append, List.length_cons, List.length_nil] at hlen ⊢; omega) (Nat.lt_of_succ_lt_succ hfuel)
          have hcount : (w ++ ['0']).length = w.length + 1 := List.length_append
          rw [hcount, List.append_assoc w, List.singleton_append, Nat.cast_succ] at hloop
          refine ⟨k + 1, ?_, ?_⟩
          · rw [Text.strip_zero, List.replicate_succ, List.cons_append, ← hk]
          · rw [hnext, Option.bind_some, if_pos (hs.2 d List.mem_cons_self), hloop, add_right_comm, add_assoc]
      · refine ⟨0, (Text.strip_of_ne hne t).symm, ?_⟩
        rw [if_neg hne, Nat.add_zero]

/-- the zeros are removed by moving the rest to the front -/
theorem memmove_front (w t rest : Chars) :
    ∃ rest', memmove (w ++ (t ++ nul :: rest)) 0 w.length (t.length + 1) = some (t ++ nul :: rest') := by
  have hmoved : (t ++ nul :: rest).take (t.length + 1) = t ++ [nul] := by
    have hlen : (t ++ [nul]).length = t.length + 1 := List.length_append
    rw [List.append_cons, ← hlen, List.take_left]
  rw [memmove, if_pos, List.drop_left, hmoved, List.take_zero, List.nil_append, List.append_assoc]
  · exact ⟨_, rfl⟩
  · simp only [List.length_append, List.length_cons]
    omega

theorem stripInPlace_eq {t : Chars} (rest : Chars) (ht : t ≠ []) (hs : ∀ c ∈ t, c ≠ nul) (hlen : t.length < 2 ^ 31) :
    ∃ rest', stripInPlace (t ++ nul :: rest) = some (strip t ++ nul :: rest') ∧ ∀ c ∈ strip t, c ≠ nul := by
  have hfuel : t.length < (t ++ nul :: rest).length + 1 := by
    rw [List.length_append]
    omega
  obtain ⟨k, hk, hloop⟩ := skipZeros_from [] t rest ht hs hlen hfuel
  rw [List.nil_append, List.length_nil, Nat.zero_add, Nat.cast_zero] at hloop
  have hs' : ∀ c ∈ strip t, c ≠ nul := by
    intro c hc
    refine hs c ?_
    rw [hk]
    exact List.mem_append_right _ hc
  rw [stripInPlace, hloop]
  simp only [Option.bind_eq_bind, Option.bind_some, Int.toNat_natCast]
  rcases Nat.eq_zero_or_pos k with rfl | hpos
  · rw [List.replicate_zero, List.nil_append] at hk
    refine ⟨rest, ?_, hs'⟩
    rw [if_neg (by omega), ← hk]
  · have hsplit : t ++ nul :: rest = List.replicate k '0' ++ (strip t ++ nul :: rest) := by
      rw [← List.append_assoc, ← hk]
    have hcount : (List.replicate k '0').length = k := List.length_replicate
    have hstrlen : strlen (List.replicate k '0' ++ (strip t ++ nul :: rest)) (List.replicate k '0').length = _ := strlen_eq hs'
    obtain ⟨rest', hmove⟩ := memmove_front (List.replicate k '0') (strip t) rest
    rw [hcount] at hstrlen hmove
    refine ⟨rest', ?_, hs'⟩
    rw [if_pos (by omega), hsplit, hstrlen, Option.bind_some, hmove]

theorem removeInPlace_eq (hlong : 1 < num.length) :
    removeInPlace (num ++ nul :: rest) num.length = some (cut num ++ nul :: nul :: rest) := by
  have hne : num ≠ [] := List.length_pos_iff.1 (by omega)
  have hlt := cutIndex_lt hne
  obtain ⟨a, x, b, hnum, hcut, hindex⟩ := exists_cut hne
  have hcount : num.length = a.length + (b.length + 1) := by
    rw [hnum]
    exact List.length_append
  have hfuel : num.length < (num ++ nul :: rest).length + 1 := by
    rw [List.length_append]
    omega
  rw [removeInPlace, findDescent_eq num (nul :: rest) hfuel]
  simp only [Option.bind_eq_bind, Option.bind_some, ← hindex]
  by_cases hdescent : a.length + 1 < num.length
  · rw [if_pos hdescent]
    have hmoved : ((num.length : ℤ) - (a.length : ℤ)).toNat = b.length + 1 := by omega
    show memmove (num ++ nul :: rest) (a.length : ℤ).toNat ((a.length : ℤ) + 1).toNat _ = _
    rw [hmoved, Int.toNat_natCast, ← Nat.cast_succ, Int.toNat_natCast, hcut, hnum, Nat.succ_eq_add_one, memmove_up]
  · rw [if_neg hdescent]
    obtain rfl : b = [] := List.length_eq_zero_iff.1 (by omega)
    show setChar (num ++ nul :: rest) ((num.length : ℤ) - 1) nul = _
    have hlast : (num.length : ℤ) - 1 = a.length := by
      rw [List.length_nil] at hcount
      omega
    rw [hlast, hcut, hnum, setChar_last, List.append_nil]

/-- two bytes are written in any case -/
theorem setChar_zero (c d : Char) (l : Chars) :
    (setChar (c :: d :: l) 0 '0').bind (fun buf => setChar buf 1 nul) = some ('0' :: nul :: l) := by
  have hfirst : setChar (c :: d :: l) 0 '0' = some ('0' :: d :: l) := by
    rw [setChar, if_pos (by simp only [List.length_cons]; omega)]
    rfl
  have hsecond : setChar ('0' :: d :: l) 1 nul = some ('0' :: nul :: l) := by
    rw [setChar, if_pos (by simp only [List.length_cons]; omega)]
    rfl
  rw [hfirst, Option.bind_some, hsecond]

/-- a string of at most one digit -/
theorem removeOneToMin_short {buf : Chars} (hlen : strlen buf 0 = some num.length) (hshort : num.length ≤ 1)
    (hbuf : 2 ≤ buf.length) : ∃ rest', removeOneToMin buf = some ('0' :: nul :: rest') := by
  have hint : int num.length = num.length := int_of_small (by omega) (by omega)
  rcases buf with _ | ⟨c, _ | ⟨d, l⟩⟩
  · simp at hbuf
  · simp at hbuf
  · refine ⟨l, ?_⟩
    rw [removeOneToMin, hlen, Option.bind_eq_bind, Option.bind_some, hint, if_pos (by omega), Option.bind_eq_bind, setChar_zero]

theorem removeOneToMin_eq (hs : ∀ c ∈ num, c ≠ nul) (hlen : num.length < 2 ^ 31) (hbuf : 2 ≤ (num ++ nul :: rest).length) :
    ∃ buf, removeOneToMin (num ++ nul :: rest) = some buf ∧ cString buf = strip (cut num) := by
  have hstrlen : strlen ([] ++ (num ++ nul :: rest)) [].length = some num.length := strlen_eq hs
  rw [List.nil_append, List.length_nil] at hstrlen
  have hint : int num.length = num.length := int_of_small (by omega) (by omega)
  rcases Nat.lt_or_ge 1 num.length with hlong | hshort
  · have hsub : ∀ c ∈ cut num, c ≠ nul := fun c hc => by
      rw [cut_eq_eraseIdx] at hc
      exact hs c (List.mem_of_mem_eraseIdx hc)
    have hcount : (cut num).length = num.length - 1 := by
      rw [cut_eq_eraseIdx, List.length_eraseIdx_of_lt (cutIndex_lt (List.length_pos_iff.1 (by omega)))]
    have hne : cut num ≠ [] := List.length_pos_iff.1 (by omega)
    obtain ⟨rest', hstrip, hs'⟩ := stripInPlace_eq (nul :: rest) hne hsub (by omega)
    refine ⟨strip (cut num) ++ nul :: rest', ?_, cString_eq hs'⟩
    rw [removeOneToMin, hstrlen, Option.bind_eq_bind, Option.bind_some, hint, if_neg (by omega), removeInPlace_eq hlong,
      Option.bind_eq_bind, Option.bind_some, hstrip]
  · have hcut : strip (cut num) = ['0'] := by
      rcases num with _ | ⟨x, _ | ⟨y, l⟩⟩
      · rfl
      · rfl
      · simp only [List.length_cons] at hshort
        omega
    obtain ⟨rest', hres⟩ := removeOneToMin_short hstrlen hshort hbuf
    exact ⟨_, hres, hcut ▸ rfl⟩

/-- the numbers that are left when one digit is removed -/
def results (num : Chars) : Set ℕ := {v | ∃ i < num.length, v = number (num.eraseIdx i)}

theorem number_cut_least (hnum : num ≠ []) (hdigits : ∀ c ∈ num, c.isDigit) : IsLeast (results num) (number (cut num)) := by
  have hdigits' : ∀ i, ∀ c ∈ num.eraseIdx i, c.isDigit := fun i c hc => hdigits c (List.mem_of_mem_eraseIdx hc)
  refine ⟨⟨cutIndex num, cutIndex_lt hnum, by rw [cut_eq_eraseIdx]⟩, ?_⟩
  rintro v ⟨i, hi, rfl⟩
  have hle := cut_le i hi
  rw [cut_eq_eraseIdx] at hle ⊢
  refine Text.number_le ?_ (hdigits' _) (hdigits' i) hle
  rw [List.length_eraseIdx_of_lt (cutIndex_lt hnum), List.length_eraseIdx_of_lt hi]

theorem isDigit_ne_nul {c : Char} (hc : c.isDigit) : c ≠ nul := by
  rintro rfl
  cases hc

/-- **The smallest number.** For every string of fewer than 2 ^ 31 digits, `removeOneDigitToMin` returns the numeral of the least
number that is left when one digit is removed, "0" if there is at most one, and `removeOneToMin` leaves the same string in
every buffer of at least two bytes. -/
theorem removeOneDigitToMin_least (num : Chars) (hdigits : ∀ c ∈ num, c.isDigit) (hlen : num.length < 2 ^ 31) :
    ∃ r, removeOneDigitToMin num = some r ∧ (num.length ≤ 1 → r = ['0']) ∧
      (num ≠ [] → ∃ v, IsLeast (results num) v ∧ r = Nat.toDigits 10 v) ∧
      ∀ rest, 2 ≤ (num ++ nul :: rest).length →
        ∃ buf, removeOneToMin (num ++ nul :: rest) = some buf ∧ cString buf = r := by
  have hcut : ∀ c ∈ cut num, c.isDigit := fun c hc => by
    rw [cut_eq_eraseIdx] at hc
    exact hdigits c (List.mem_of_mem_eraseIdx hc)
  refine ⟨_, removeOneDigitToMin_eq hlen, fun hshort => ?_, fun hnum => ?_, fun rest hbuf => ?_⟩
  · rcases num with _ | ⟨x, _ | ⟨y, l⟩⟩
    · rfl
    · rfl
    · simp only [List.length_cons] at hshort
      omega
  · exact ⟨_, number_cut_least hnum hdigits, (Text.toDigits_number hcut).symm⟩
  · exact removeOneToMin_eq (fun c hc => isDigit_ne_nul (hdigits c hc)) hlen hbuf

theorem removeOneDigitToMin_least_main :
    (∀ c ∈ "14356".toList, c.isDigit) ∧
      (∃ r, removeOneDigitToMin "14356".toList = some r ∧ ("14356".toList.length ≤ 1 → r = ['0']) ∧
        ("14356".toList ≠ [] → ∃ v, IsLeast (results "14356".toList) v ∧ r = Nat.toDigits 10 v) ∧
        ∀ rest, 2 ≤ ("14356".toList ++ nul :: rest).length →
          ∃ buf, removeOneToMin ("14356".toList ++ nul :: rest) = some buf ∧ cString buf = r) ∧
      removeOneDigitToMin "14356".toList = some "1356".toList :=
  ⟨List.all_eq_true.1 rfl, removeOneDigitToMin_least "14356".toList (List.all_eq_true.1 rfl) (by decide), by decide⟩

theorem number_ones (n : ℕ) : 0 < number (List.replicate (n + 1) '1') := by
  have hone : '1'.toNat - 48 = 1 := rfl
  rw [List.replicate_succ, Text.number_cons, hone]
  positivity

/-- the length does not fit into an `int` -/
theorem removeOneDigitToMin_cut (hlen : num.length = 2 ^ 31) : removeOneDigitToMin num = some ['0'] := by
  have hint : int num.length = -2 ^ 31 := by
    rw [hlen]
    decide
  rw [removeOneDigitToMin, hint]
  rfl

/-- **Too long a string.** From 2 ^ 31 ones, no number that is left is zero; the result is "0". In a buffer of one byte, an empty
string is overwritten outside. -/
theorem ones_lost :
    (∃ num : Chars, (∀ c ∈ num, c.isDigit) ∧ num ≠ [] ∧ removeOneDigitToMin num = some ['0'] ∧ 0 ∉ results num) ∧
      removeOneToMin [nul] = none := by
  obtain ⟨n, hn⟩ : ∃ n, n + 1 + 1 = 2 ^ 31 := ⟨2 ^ 31 - 2, by norm_num⟩
  refine ⟨⟨List.replicate (n + 1 + 1) '1', ?_, ?_, removeOneDigitToMin_cut ?_, ?_⟩, by decide⟩
  · intro c hc
    obtain rfl := List.eq_of_mem_replicate hc
    decide
  · exact List.cons_ne_nil _ _
  · rw [List.length_replicate, hn]
  · rintro ⟨i, hi, hzero⟩
    rw [List.length_replicate] at hi
    rw [List.eraseIdx_replicate, if_pos hi, Nat.add_sub_cancel] at hzero
    exact (number_ones n).ne hzero

end InterviewPrep.Arista.RemoveDigit
