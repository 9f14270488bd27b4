/-
The array stack of stack/stack.c.

`stackInit` allocates an array of `n` ints and sets `top` to -1 and `capacity` to `n`. `push` and `pop` move `top`, and
they move `capacity` with it, so that the test of `isFull`, `capacity == top`, never holds. An access outside the array and an
`int` that overflows are steps that are not possible (`none`); only `capacity` can overflow.

- `lifo_iff`: the calls are answered like those of a stack of at most `n` elements, with no access outside the array,
  exactly if no `push` comes when `n` elements are stored, or when `capacity` is the greatest `int`;
- `pushed_past_end` is one that does.
-/
import InterviewPrep.Core.Machine
import InterviewPrep.Core.Numeral

namespace InterviewPrep.ArrayStack

open Numeral (signed signed_of_small signed_of_big)

/-! ## Model -/

/-- `stack_t` -/
structure Stack where
  stack : List ℤ
  top : ℤ
  capacity : ℤ

inductive Call where
  | push (val : ℤ)
  | pop
  deriving DecidableEq

/-- `array` is what `malloc` returns, with any contents -/
def stackInit (array : List ℤ) : Stack := ⟨array, -1, array.length⟩

namespace Stack

def isFull (s : Stack) : Bool := s.capacity = s.top

def isEmpty (s : Stack) : Bool := s.top = -1

/-- the index is one of the array -/
def InArray (s : Stack) (i : ℤ) : Prop := 0 ≤ i ∧ i < s.stack.length

instance (s : Stack) (i : ℤ) : Decidable (s.InArray i) := inferInstanceAs (Decidable (_ ∧ _))

def write (s : Stack) (i val : ℤ) : Option (List ℤ) := if s.InArray i then some (s.stack.set i.toNat val) else none

def read (s : Stack) (i : ℤ) : Option ℤ := if s.InArray i then some (s.stack.getD i.toNat 0) else none

def push (s : Stack) (val : ℤ) : Option (Stack × ℤ) :=
  if s.isFull then some (s, -1)
  else do
    let top ← signed (s.top + 1)
    let stack ← s.write top val
    let capacity ← signed (s.capacity + 1)
    some (⟨stack, top, capacity⟩, 0)

def pop (s : Stack) : Option (Stack × ℤ) :=
  if s.isEmpty then some (s, -1)
  else do
    let v ← s.read s.top
    let top ← signed (s.top - 1)
    let capacity ← signed (s.capacity - 1)
    some (⟨s.stack, top, capacity⟩, v)

end Stack

def step (s : Stack) : Call → Option (Stack × ℤ)
  | .push val => s.push val
  | .pop => s.pop

/-- a stack of at most `n` elements, the newest first -/
def lifo (n : ℕ) (l : List ℤ) : Call → List ℤ × ℤ
  | .push val => if l.length = n then (l, -1) else (val :: l, 0)
  | .pop =>
    match l with
    | [] => ([], -1)
    | v :: l => (l, v)

/-- the array holds `l` from `top` down -/
def Stores (s : Stack) (l : List ℤ) : Prop := s.top = l.length - 1 ∧ (s.stack.take l.length).reverse = l

/-- a `push` comes when fewer than `n` elements are stored, and `capacity` is not the greatest `int` -/
def Room (s : Stack) : Call → Prop
  | .push _ => s.top + 1 < s.stack.length ∧ s.capacity < 2 ^ 31 - 1
  | .pop => True

instance (s : Stack) : ∀ call, Decidable (Room s call)
  | .push _ => inferInstanceAs (Decidable (_ ∧ _))
  | .pop => isTrue trivial

/-! ## Runs -/

/-- the array holds `l` from `top` down, and `capacity` has moved with `top` -/
structure Holds (n : ℕ) (s : Stack) (l : List ℤ) : Prop where
  length : s.stack.length = n
  top : s.top = l.length - 1
  fits : l.length ≤ n
  capacity : s.capacity = n + l.length
  small : n + l.length < 2 ^ 31
  stored : (s.stack.take l.length).reverse = l

variable {n : ℕ} {s : Stack} {l : List ℤ}

/-- the two fields that `isFull` compares are `n + 1` apart -/
theorem not_isFull (h : Holds n s l) : s.isFull = false := by
  have htop := h.top
  have hcapacity := h.capacity
  unfold Stack.isFull
  rw [decide_eq_false_iff_not]
  omega

theorem isEmpty_iff (h : Holds n s l) : s.isEmpty = true ↔ l = [] := by
  rw [Stack.isEmpty, decide_eq_true_eq, h.top, ← List.length_eq_zero_iff]
  omega

theorem top_succ (h : Holds n s l) : signed (s.top + 1) = some (l.length : ℤ) := by
  have hsmall := h.small
  rw [h.top, signed_of_small (by omega) (by omega)]
  congr 1
  ring

/-- what `push` comes to, up to the two things that can go wrong -/
theorem push_eq (h : Holds n s l) (val : ℤ) :
    s.push val = if l.length < n then (signed (s.capacity + 1)).map fun capacity =>
      (⟨s.stack.set l.length val, l.length, capacity⟩, 0) else none := by
  have hlength := h.length
  have hin : s.InArray l.length ↔ l.length < n := by
    unfold Stack.InArray
    omega
  rw [Stack.push, not_isFull h, if_neg Bool.false_ne_true, top_succ h]
  change ((s.write l.length val).bind fun stack => (signed (s.capacity + 1)).bind fun capacity =>
    some ((⟨stack, l.length, capacity⟩ : Stack), (0 : ℤ))) = _
  unfold Stack.write
  by_cases hlt : l.length < n
  · rw [if_pos (hin.2 hlt), if_pos hlt, Int.toNat_natCast]
    cases signed (s.capacity + 1) <;> rfl
  · rw [if_neg (mt hin.1 hlt), if_neg hlt]
    rfl

theorem push_room (h : Holds n s l) (val : ℤ) (hroom : l.length < n) (hcapacity : s.capacity < 2 ^ 31 - 1) :
    ∃ s', s.push val = some (s', 0) ∧ Holds n s' (val :: l) := by
  have hlength := h.length
  have hsum := h.capacity
  refine ⟨⟨s.stack.set l.length val, l.length, s.capacity + 1⟩, ?_, ?_⟩
  · rw [push_eq h, if_pos hroom, signed_of_small (by omega) (by omega), Option.map_some]
  · refine ⟨by rw [List.length_set, hlength], by simp, hroom, ?_, ?_, ?_⟩
    · rw [List.length_cons]
      push_cast
      omega
    · rw [List.length_cons]
      omega
    · show ((s.stack.set l.length val).take (l.length + 1)).reverse = val :: l
      rw [List.take_add_one, List.take_set_of_le le_rfl, List.getElem?_set_self (hlength ▸ hroom), Option.toList_some,
        List.reverse_append, h.stored]
      rfl

theorem pop_empty (h : Holds n s []) : s.pop = some (s, -1) := if_pos ((isEmpty_iff h).2 rfl)

theorem pop_some {v : ℤ} (h : Holds n s (v :: l)) : ∃ s', s.pop = some (s', v) ∧ Holds n s' l := by
  have hlength := h.length
  have hfits := h.fits
  have hsmall := h.small
  have hcapacity := h.capacity
  rw [List.length_cons] at hfits hsmall hcapacity
  push_cast at hcapacity
  have htop : s.top = l.length := by
    rw [h.top, List.length_cons]
    push_cast
    ring
  have hne : ¬s.isEmpty = true := fun hempty => by
    cases (isEmpty_iff h).1 hempty
  have hin : s.InArray s.top := by
    rw [htop]
    exact ⟨by omega, by omega⟩
  -- the stored elements, with the last one apart
  have hstored : l.reverse ++ [v] = s.stack.take (l.length + 1) := by
    rw [← List.reverse_cons]
    exact (List.reverse_eq_iff.1 h.stored).symm
  rw [List.take_add_one, List.getElem?_eq_getElem (hlength ▸ hfits), Option.toList_some] at hstored
  obtain ⟨hrest, hlast⟩ := List.append_inj' hstored rfl
  refine ⟨⟨s.stack, s.top - 1, s.capacity - 1⟩, ?_, hlength, ?_, by omega, ?_, by omega, ?_⟩
  · have hv : s.read s.top = some v := by
      rw [Stack.read, if_pos hin, htop, Int.toNat_natCast, List.getD_eq_getElem?_getD,
        List.getElem?_eq_getElem (hlength ▸ hfits), Option.getD_some, ← (List.cons.inj hlast).1]
    unfold Stack.pop
    rw [if_neg hne, hv, signed_of_small (by omega) (by omega), signed_of_small (by omega) (by omega)]
    rfl
  · show s.top - 1 = l.length - 1
    rw [htop]
  · show s.capacity - 1 = n + l.length
    omega
  · rw [← hrest, List.reverse_reverse]

theorem init_holds (array : List ℤ) (hn : array.length < 2 ^ 31) : Holds array.length (stackInit array) [] where
  length := rfl
  top := rfl
  fits := Nat.zero_le _
  capacity := (add_zero _).symm
  small := hn
  stored := rfl

theorem room_push_iff (h : Holds n s l) (val : ℤ) : Room s (.push val) ↔ l.length < n ∧ s.capacity < 2 ^ 31 - 1 := by
  rw [Room, h.top, h.length]
  refine and_congr_left fun _ => ?_
  omega

theorem step_good (s : Stack) (l : List ℤ) (call : Call) (h : Holds n s l) (hroom : Room s call) :
    ∃ s', step s call = some (s', (lifo n l call).2) ∧ Holds n s' (lifo n l call).1 := by
  cases call with
  | push val =>
    obtain ⟨hlt, hcapacity⟩ := (room_push_iff h val).1 hroom
    rw [lifo, if_neg hlt.ne]
    exact push_room h val hlt hcapacity
  | pop =>
    cases l with
    | nil => exact ⟨s, pop_empty h, h⟩
    | cons v l => exact pop_some h

theorem step_bad (s : Stack) (l : List ℤ) (call : Call) (h : Holds n s l) (hfull : ¬Room s call) (s' : Stack) :
    step s call ≠ some (s', (lifo n l call).2) := by
  cases call with
  | push val =>
    rw [room_push_iff h val] at hfull
    rw [step, push_eq h]
    split_ifs with hlt
    · -- the element is written, and `capacity` overflows
      have hover : 2 ^ 31 ≤ s.capacity + 1 := by
        have hge := not_lt.1 (not_and.1 hfull hlt)
        omega
      rw [signed_of_big hover, Option.map_none]
      exact (Option.some_ne_none _).symm
    · exact (Option.some_ne_none _).symm
  | pop => exact absurd trivial hfull

/-- **The stack.** On an array of `n` ints, a list of calls is answered like one on a stack of at most `n` elements, with
every access inside the array and no overflow, and leaves its elements in the array, if and only if no `push` of it comes when
`n` elements are stored, or when `n` and the elements stored are together the greatest `int`. -/
theorem lifo_iff (array : List ℤ) (hn : array.length < 2 ^ 31) (calls : List Call) :
    Machine.Agrees step (lifo array.length) Stores (stackInit array) [] calls ↔
      Machine.Meets (Machine.next step) Room (stackInit array) calls :=
  Machine.agrees_iff step_good step_bad (fun _ _ h => ⟨h.top, h.stored⟩) (init_holds array hn) calls

/-- two elements up and down, on an array of two -/
def upAndDown : List Call := [.push 1, .push 2, .pop, .push 3, .pop, .pop, .pop]

theorem lifo_iff_upAndDown : Machine.Agrees step (lifo 2) Stores (stackInit [0, 0]) [] upAndDown ∧
    (Machine.runTotal (lifo 2) [] upAndDown).2 = [0, 0, 2, 0, 3, 1, -1] :=
  ⟨(lifo_iff [0, 0] (by decide) upAndDown).2 (by decide), by decide⟩

/-- **A push past the end.** On an array of one int, the second `push` is not refused: it writes behind the array. -/
theorem pushed_past_end : (Machine.runTotal (lifo 1) [] [.push 1, .push 2]).2 = [0, -1] ∧
    ¬Machine.Agrees step (lifo 1) Stores (stackInit [0]) [] [.push 1, .push 2] := by
  refine ⟨rfl, fun h => ?_⟩
  obtain ⟨s, hrun, -⟩ := h
  cases hrun

end InterviewPrep.ArrayStack
