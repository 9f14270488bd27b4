/-
The value of a string with sums and products: arithmeticString.cpp.

One pass over the characters keeps a running sum, the term that is being multiplied, the number that is being read and the
last operator. The values are `long long`s modulo 2 ^ 64. The index is an `int` that is compared with the length as a `size_t`;
a loop that does not end, reads outside the string, or counts the index beyond the greatest `int`, is `none`.

The grammar is E ::= T ('+' T)*, T ::= NUM ('*' NUM)*, NUM ::= digit+, as the structures `Expr`, `Term` and `Num`; `Written`
says that a string is a list of tokens with any number of spaces before, between and after them.

- `evaluateExpression_eq`: the pass is a fold over the characters, if there are fewer than 2 ^ 31, and else the index overflows;
- `evaluateExpression_value`: the value of every expression whose string is not that long. `base` and `product` are the invariant:
  the sum of the terms before the last and the product of the last so far, wherever the pass keeps them;
- `spaces_lost`: an expression that has no value behind 2 ^ 31 - 1 spaces.
-/
import Mathlib.Data.BitVec
import Mathlib.Tactic
import InterviewPrep.Core.Numeral

namespace InterviewPrep.ArithmeticString

open Numeral (signed signed_of_small signed_of_big)

/-! ## Model -/

abbrev Chars := List UInt8

structure St where
  result : BitVec 64
  currentTerm : BitVec 64
  lastOp : UInt8
  currentNum : BitVec 64

/-- '+' -/
def plus : UInt8 := 43

/-- '*' -/
def times : UInt8 := 42

def init : St := ⟨0, 0, plus, 0⟩

def isdigit (c : UInt8) : Bool := 48 ≤ c && c ≤ 57

/-- the number that was read goes where the last operator says -/
def St.flush (s : St) : St :=
  if s.lastOp = plus then { s with result := s.result + s.currentTerm, currentTerm := s.currentNum }
  else if s.lastOp = times then { s with currentTerm := s.currentTerm * s.currentNum }
  else s

/-- the body of the loop -/
def St.scan (s : St) (c : UInt8) : St :=
  if isdigit c then { s with currentNum := s.currentNum * 10 + BitVec.ofNat 64 (c.toNat - 48) }
  else if c = plus ∨ c = times then { s.flush with lastOp := c, currentNum := 0 }
  else s

/-- after the loop -/
def St.finish (s : St) : BitVec 64 := s.flush.result + s.flush.currentTerm

/-- an `int` as a `size_t` -/
def toSize (i : ℤ) : ℕ := (i % 2 ^ 64).toNat

/-- `for (int i = 0; i < expression.length(); ++i)`, for at most `fuel` tests of the condition -/
def loop (expression : Chars) : ℕ → ℤ → St → Option St
  | 0, _, _ => none
  | fuel + 1, i, s =>
    if toSize i < expression.length then
      expression[toSize i]?.bind fun c => (signed (i + 1)).bind fun i => loop expression fuel i (s.scan c)
    else some s

def evaluateExpression (expression : Chars) : Option (BitVec 64) :=
  (loop expression (expression.length + 1) 0 init).map St.finish

/-! ### Expressions -/

structure Num where
  digits : List (Fin 10)
  nonempty : digits ≠ []

structure Term where
  first : Num
  rest : List Num

structure Expr where
  first : Term
  rest : List Term

def Num.value (n : Num) : ℕ := Numeral.value 10 (n.digits.map Fin.val)

def Term.value (t : Term) : ℕ := t.first.value * (t.rest.map Num.value).prod

def Expr.value (e : Expr) : ℕ := e.first.value + (e.rest.map Term.value).sum

inductive Token where
  | num (n : Num)
  | plus
  | times

def Token.chars : Token → Chars
  | .num n => n.digits.map fun d => UInt8.ofNat (48 + d.val)
  | .plus => [ArithmeticString.plus]
  | .times => [ArithmeticString.times]

def Term.tokens (t : Term) : List Token := .num t.first :: t.rest.flatMap fun n => [.times, .num n]

def Expr.tokens (e : Expr) : List Token := e.first.tokens ++ e.rest.flatMap fun t => .plus :: t.tokens

/-- ' ' -/
def space : UInt8 := 32

/-- the tokens, with spaces before each of them and at the end -/
inductive Written : List Token → Chars → Prop
  | done (n : ℕ) : Written [] (List.replicate n space)
  | token (n : ℕ) (t : Token) {ts : List Token} {s : Chars} (h : Written ts s) :
      Written (t :: ts) (List.replicate n space ++ (t.chars ++ s))

/-! ## The index -/

theorem toSize_natCast {k : ℕ} (hk : k < 2 ^ 31) : toSize k = k := by
  unfold toSize
  omega

/-- the loop from index `k` on, if the index can get to the end -/
theorem loop_eq {expression : Chars} (hlen : expression.length < 2 ^ 31) (fuel k : ℕ) (s : St) (hk : k ≤ expression.length)
    (hfuel : expression.length < fuel + k) :
    loop expression fuel k s = some ((expression.drop k).foldl St.scan s) := by
  induction fuel generalizing k s with
  | zero => omega
  | succ fuel ih =>
    rw [loop, toSize_natCast (by omega)]
    by_cases hin : k < expression.length
    · have hnext := ih (k + 1) (s.scan expression[k]) hin (by omega)
      push_cast at hnext
      rw [if_pos hin, List.getElem?_eq_getElem hin, Option.bind_some, signed_of_small (by omega) (by omega), Option.bind_some,
        hnext, List.drop_eq_getElem_cons hin, List.foldl_cons]
    · rw [if_neg hin, List.drop_eq_nil_of_le (not_lt.1 hin)]
      rfl

/-- the index overflows on the way -/
theorem loop_overflows {expression : Chars} (hlen : 2 ^ 31 ≤ expression.length) (fuel k : ℕ) (s : St) (hk : k < 2 ^ 31) :
    loop expression fuel k s = none := by
  induction fuel generalizing k s with
  | zero => rfl
  | succ fuel ih =>
    have hin : k < expression.length := hk.trans_le hlen
    rw [loop, toSize_natCast hk, if_pos hin, List.getElem?_eq_getElem hin, Option.bind_some]
    by_cases hlast : k + 1 < 2 ^ 31
    · have hnext := ih (k + 1) (s.scan expression[k]) hlast
      push_cast at hnext
      rw [signed_of_small (by omega) (by omega), Option.bind_some, hnext]
    · rw [signed_of_big (by omega), Option.bind_none]

/-- **One pass.** The characters are read one after the other, if the index can get to the last. -/
theorem evaluateExpression_eq (expression : Chars) :
    evaluateExpression expression =
      if expression.length < 2 ^ 31 then some (expression.foldl St.scan init).finish else none := by
  rw [evaluateExpression]
  split_ifs with hlen
  · have hloop := loop_eq hlen (expression.length + 1) 0 init (Nat.zero_le _) (by omega)
    rw [Nat.cast_zero, List.drop_zero] at hloop
    rw [hloop, Option.map_some]
  · have hloop := loop_overflows (not_lt.1 hlen) (expression.length + 1) 0 init (by norm_num)
    rw [Nat.cast_zero] at hloop
    rw [hloop, Option.map_none]

/-! ## Tokens -/

variable {s : St}

theorem scan_space (s : St) : s.scan space = s := rfl

theorem foldl_spaces (s : St) (n : ℕ) : (List.replicate n space).foldl St.scan s = s := by
  induction n with
  | zero => rfl
  | succ n ih => rw [List.replicate_succ, List.foldl_cons, scan_space, ih]

theorem scan_digit (s : St) (d : Fin 10) :
    s.scan (UInt8.ofNat (48 + d.val)) = { s with currentNum := s.currentNum * 10 + (d.val : BitVec 64) } := by
  have hdigit : isdigit (UInt8.ofNat (48 + d.val)) = true ∧ (UInt8.ofNat (48 + d.val)).toNat - 48 = d.val := by
    revert d
    decide
  rw [St.scan, if_pos hdigit.1, hdigit.2]
  rfl

/-- the digits of a number are taken in one by one -/
theorem foldl_digits (ds : List (Fin 10)) (s : St) :
    (ds.map fun d => UInt8.ofNat (48 + d.val)).foldl St.scan s =
      { s with currentNum := s.currentNum * 10 ^ ds.length + (Numeral.value 10 (ds.map Fin.val) : BitVec 64) } := by
  induction ds using List.reverseRecOn with
  | nil => simp [Numeral.value]
  | append_singleton ds d ih =>
    rw [List.map_append, List.foldl_append, ih, List.map_singleton, List.foldl_cons, List.foldl_nil, scan_digit,
      List.map_append, List.map_singleton, Numeral.value_concat, List.length_append, List.length_singleton]
    congr 1
    push_cast
    ring

/-- what a token does to the state -/
def St.token (s : St) : Token → St
  | .num n => { s with currentNum := s.currentNum * 10 ^ n.digits.length + (n.value : BitVec 64) }
  | .plus => { s.flush with lastOp := plus, currentNum := 0 }
  | .times => { s.flush with lastOp := times, currentNum := 0 }

theorem foldl_token (s : St) (t : Token) : t.chars.foldl St.scan s = s.token t := by
  cases t with
  | num n => exact foldl_digits n.digits s
  | plus => rfl
  | times => rfl

/-- **Spaces do not matter.** -/
theorem foldl_written {ts : List Token} {chars : Chars} (h : Written ts chars) (s : St) :
    chars.foldl St.scan s = ts.foldl St.token s := by
  induction h generalizing s with
  | done n => exact foldl_spaces s n
  | token n t _ ih => rw [List.foldl_append, foldl_spaces, List.foldl_append, foldl_token, ih, List.foldl_cons]

/-! ## The value -/

/-- the sum of the terms before the last, wherever it is kept -/
def St.base (s : St) : BitVec 64 := if s.lastOp = plus then s.result + s.currentTerm else s.result

/-- the product of the last term so far -/
def St.product (s : St) : BitVec 64 := if s.lastOp = plus then s.currentNum else s.currentTerm * s.currentNum

/-- the last operator is one -/
def St.Ok (s : St) : Prop := s.lastOp = plus ∨ s.lastOp = times

theorem times_ne_plus : times ≠ plus := by decide

theorem finish_eq (h : s.Ok) : s.finish = s.base + s.product := by
  unfold St.finish St.flush St.base St.product
  rcases h with h | h
  · simp [h]
  · simp [h, times_ne_plus]

/-- one more factor -/
theorem times_num (h : s.Ok) (n : Num) :
    (([.times, .num n] : List Token).foldl St.token s).Ok ∧
      (([.times, .num n] : List Token).foldl St.token s).base = s.base ∧
      (([.times, .num n] : List Token).foldl St.token s).product = s.product * (n.value : BitVec 64) := by
  refine ⟨Or.inr rfl, ?_, ?_⟩
  · rcases h with h | h <;> simp [St.token, St.base, St.flush, h, times_ne_plus]
  · rcases h with h | h <;> simp [St.token, St.product, St.flush, h, times_ne_plus]

/-- one more term, with its first factor -/
theorem plus_num (h : s.Ok) (n : Num) :
    (([.plus, .num n] : List Token).foldl St.token s).Ok ∧
      (([.plus, .num n] : List Token).foldl St.token s).base = s.base + s.product ∧
      (([.plus, .num n] : List Token).foldl St.token s).product = (n.value : BitVec 64) := by
  refine ⟨Or.inl rfl, ?_, ?_⟩
  · rcases h with h | h <;> simp [St.token, St.base, St.product, St.flush, h, times_ne_plus]
  · simp [St.token, St.product]

/-- the factors of a term after the first -/
theorem factors (h : s.Ok) (ns : List Num) :
    ((ns.flatMap fun n => [Token.times, .num n]).foldl St.token s).Ok ∧
      ((ns.flatMap fun n => [Token.times, .num n]).foldl St.token s).base = s.base ∧
      ((ns.flatMap fun n => [Token.times, .num n]).foldl St.token s).product =
        s.product * ((ns.map Num.value).prod : BitVec 64) := by
  induction ns generalizing s with
  | nil => exact ⟨h, rfl, by simp⟩
  | cons n ns ih =>
    obtain ⟨hok, hbase, hproduct⟩ := times_num h n
    obtain ⟨hok', hbase', hproduct'⟩ := ih hok
    rw [List.flatMap_cons, List.foldl_append]
    refine ⟨hok', hbase'.trans hbase, ?_⟩
    rw [hproduct', hproduct, List.map_cons, List.prod_cons]
    push_cast
    ring

/-- one more term -/
theorem plus_term (h : s.Ok) (t : Term) :
    ((Token.plus :: t.tokens).foldl St.token s).Ok ∧
      ((Token.plus :: t.tokens).foldl St.token s).base = s.base + s.product ∧
      ((Token.plus :: t.tokens).foldl St.token s).product = (t.value : BitVec 64) := by
  obtain ⟨hok, hbase, hproduct⟩ := plus_num h t.first
  obtain ⟨hok', hbase', hproduct'⟩ := factors hok t.rest
  refine ⟨hok', hbase'.trans hbase, ?_⟩
  have hvalue : (t.value : BitVec 64) = (t.first.value : BitVec 64) * ((t.rest.map Num.value).prod : BitVec 64) := by
    rw [Term.value]
    push_cast
    rfl
  rw [hvalue, ← hproduct]
  exact hproduct'

/-- the terms of an expression after the first -/
theorem terms (h : s.Ok) (ts : List Term) :
    ((ts.flatMap fun t => Token.plus :: t.tokens).foldl St.token s).Ok ∧
      ((ts.flatMap fun t => Token.plus :: t.tokens).foldl St.token s).finish =
        s.finish + ((ts.map Term.value).sum : BitVec 64) := by
  induction ts generalizing s with
  | nil => exact ⟨h, by simp⟩
  | cons t ts ih =>
    obtain ⟨hok, hbase, hproduct⟩ := plus_term h t
    obtain ⟨hok', hfinish⟩ := ih hok
    rw [List.flatMap_cons, List.foldl_append]
    refine ⟨hok', ?_⟩
    rw [hfinish, finish_eq hok, hbase, hproduct, finish_eq h, List.map_cons, List.sum_cons]
    push_cast
    ring

/-- the first term -/
theorem first_term (t : Term) :
    (t.tokens.foldl St.token init).Ok ∧ (t.tokens.foldl St.token init).finish = (t.value : BitVec 64) := by
  have hok : (init.token (.num t.first)).Ok := Or.inl rfl
  obtain ⟨hok', hbase, hproduct⟩ := factors hok t.rest
  refine ⟨hok', ?_⟩
  calc (t.tokens.foldl St.token init).finish
      = (init.token (.num t.first)).base +
          (init.token (.num t.first)).product * ((t.rest.map Num.value).prod : BitVec 64) := by
        rw [Term.tokens, List.foldl_cons, finish_eq hok', hbase, hproduct]
    _ = (t.first.value : BitVec 64) * ((t.rest.map Num.value).prod : BitVec 64) := by
        simp [St.token, St.base, St.product, init]
    _ = (t.value : BitVec 64) := by
        rw [Term.value]
        push_cast
        rfl

theorem tokens_value (e : Expr) : (e.tokens.foldl St.token init).finish = (e.value : BitVec 64) := by
  obtain ⟨hok, hfirst⟩ := first_term e.first
  rw [Expr.tokens, List.foldl_append, (terms hok e.rest).2, hfirst, Expr.value]
  push_cast
  rfl

/-- **The value of an expression.** For every expression and every way to write it with spaces, of at most 2 ^ 31 - 1
characters, `evaluateExpression` returns its value modulo 2 ^ 64, in two's complement. -/
theorem evaluateExpression_value (e : Expr) (expression : Chars) (h : Written e.tokens expression)
    (hlen : expression.length ≤ 2 ^ 31 - 1) :
    ∃ v, evaluateExpression expression = some v ∧ v.toInt = (e.value : ℤ).bmod (2 ^ 64) := by
  refine ⟨(e.value : BitVec 64), ?_, BitVec.toInt_ofNat' ..⟩
  rw [evaluateExpression_eq, if_pos (by omega), foldl_written h, tokens_value]

/-- 12 + 3 * 5, the first expression of `main` -/
def sample : Expr := ⟨⟨⟨[1, 2], by decide⟩, []⟩, [⟨⟨[3], by decide⟩, [⟨[5], by decide⟩]⟩]⟩

theorem sample_written : Written sample.tokens [49, 50, 32, 43, 32, 51, 32, 42, 32, 53] :=
  .token 0 _ (.token 1 _ (.token 1 _ (.token 1 _ (.token 1 _ (.done 0)))))

theorem evaluateExpression_value_sample :
    ∃ v, evaluateExpression [49, 50, 32, 43, 32, 51, 32, 42, 32, 53] = some v ∧ v.toInt = 27 := by
  obtain ⟨v, hv, hvalue⟩ := evaluateExpression_value sample _ sample_written (by decide)
  exact ⟨v, hv, by rw [hvalue]; decide⟩

/-! ## A string that is too long -/

/-- the number 1 -/
def one : Expr := ⟨⟨⟨[1], by decide⟩, []⟩, []⟩

theorem spaces_then_one (n : ℕ) : Written one.tokens (List.replicate n space ++ [49]) := .token n _ (.done 0)

/-- **No value.** The number 1 behind 2 ^ 31 - 1 spaces is an expression of value 1, and the index overflows after its digit. -/
theorem spaces_lost :
    Written one.tokens (List.replicate (2 ^ 31 - 1) space ++ [49]) ∧ one.value = 1 ∧
      ¬ ∃ v, evaluateExpression (List.replicate (2 ^ 31 - 1) space ++ [49]) = some v ∧
        v.toInt = (one.value : ℤ).bmod (2 ^ 64) := by
  have hlen : ¬(List.replicate (2 ^ 31 - 1) space ++ [49]).length < 2 ^ 31 := by
    rw [List.length_append, List.length_replicate, List.length_singleton]
    omega
  refine ⟨spaces_then_one (2 ^ 31 - 1), rfl, fun h => ?_⟩
  obtain ⟨v, hv, -⟩ := h
  rw [evaluateExpression_eq, if_neg hlen] at hv
  cases hv

end InterviewPrep.ArithmeticString
