/-
The ring buffer of circularQueue/circularBufferStatic.cpp (`CircularBuffer<T>`), for one thread.

`push` and `pop` throw on a full and on an empty buffer. An index outside the vector, and a remainder by a capacity of zero,
is a step that is not possible (`none`).

- `bounded_fifo`: for every capacity, also zero, every sequence of calls is possible, and is answered like a first-in first-out
  list of at most that many values; a call that throws changes nothing.
-/
import InterviewPrep.Core.Machine
import InterviewPrep.Core.Window

namespace InterviewPrep.CircularQueue.BufferStatic

/-! ## Model -/

structure CircularBuffer (T : Type) where
  buffer : ℕ → T
  capacity : ℕ
  head : ℕ
  tail : ℕ
  size : ℕ

inductive Call (T : Type) where
  | push (value : T)
  | pop
  | empty
  | full
  | size

inductive Answer (T : Type) where
  | done
  | value (v : T)
  | flag (b : Bool)
  | count (n : ℕ)
  | threw (what : String)

variable {T : Type}

namespace CircularBuffer

/-- the constructor; the vector holds default values -/
def new [Inhabited T] (capacity : ℕ) : CircularBuffer T := ⟨fun _ => default, capacity, 0, 0, 0⟩

def empty (cb : CircularBuffer T) : Bool := cb.size = 0

def full (cb : CircularBuffer T) : Bool := cb.size = cb.capacity

/-- `(i + 1) % capacity_` -/
def next (cb : CircularBuffer T) (i : ℕ) : Option ℕ := if cb.capacity = 0 then none else some ((i + 1) % cb.capacity)

def push (cb : CircularBuffer T) (value : T) : Option (CircularBuffer T × Answer T) :=
  if cb.full then some (cb, .threw "Buffer is full")
  else if cb.head < cb.capacity then
    (cb.next cb.head).map fun head =>
      ({ cb with buffer := Function.update cb.buffer cb.head value, head := head, size := cb.size + 1 }, .done)
  else none

def pop (cb : CircularBuffer T) : Option (CircularBuffer T × Answer T) :=
  if cb.empty then some (cb, .threw "Buffer is empty")
  else if cb.tail < cb.capacity then
    (cb.next cb.tail).map fun tail => ({ cb with tail := tail, size := cb.size - 1 }, .value (cb.buffer cb.tail))
  else none

end CircularBuffer

def step (cb : CircularBuffer T) : Call T → Option (CircularBuffer T × Answer T)
  | .push value => cb.push value
  | .pop => cb.pop
  | .empty => some (cb, .flag cb.empty)
  | .full => some (cb, .flag cb.full)
  | .size => some (cb, .count cb.size)

/-! ## What it is for -/

/-- a first-in first-out list of at most `cap` values -/
def bounded (cap : ℕ) (l : List T) : Call T → List T × Answer T
  | .push value => if l.length = cap then (l, .threw "Buffer is full") else (l ++ [value], .done)
  | .pop =>
    match l with
    | [] => ([], .threw "Buffer is empty")
    | v :: l => (l, .value v)
  | .empty => (l, .flag l.isEmpty)
  | .full => (l, .flag (l.length = cap))
  | .size => (l, .count l.length)

/-- the vector holds the list, if it has any room -/
structure Holds (cap : ℕ) (cb : CircularBuffer T) (l : List T) : Prop where
  capacity : cb.capacity = cap
  size : cb.size = l.length
  length_le : l.length ≤ cap
  window : 0 < cap → Window cap cb.buffer cb.head cb.tail l

variable {cap : ℕ} {cb : CircularBuffer T} {l : List T}

theorem new_holds [Inhabited T] (cap : ℕ) : Holds cap (CircularBuffer.new cap : CircularBuffer T) [] :=
  ⟨rfl, rfl, Nat.zero_le cap, fun hcap => Window.empty hcap _⟩

theorem Holds.empty_eq (h : Holds cap cb l) : cb.empty = l.isEmpty := by
  rw [CircularBuffer.empty, h.size, Bool.eq_iff_iff, decide_eq_true_iff, List.isEmpty_iff, List.length_eq_zero_iff]

theorem Holds.full_eq (h : Holds cap cb l) : cb.full = decide (l.length = cap) := by
  rw [CircularBuffer.full, h.size, h.capacity]

theorem next_eq (hcap : 0 < cap) (hcapacity : cb.capacity = cap) (i : ℕ) : cb.next i = some ((i + 1) % cap) := by
  rw [CircularBuffer.next, hcapacity, if_neg (Nat.ne_of_gt hcap)]

theorem push_step (h : Holds cap cb l) (value : T) :
    ∃ cb', cb.push value = some (cb', (bounded cap l (.push value)).2) ∧ Holds cap cb' (bounded cap l (.push value)).1 := by
  rw [CircularBuffer.push, h.full_eq, bounded]
  by_cases hfull : l.length = cap
  · rw [if_pos hfull, if_pos (decide_eq_true hfull)]
    exact ⟨cb, rfl, h⟩
  · have hroom : l.length < cap := Nat.lt_of_le_of_ne h.length_le hfull
    have hcap : 0 < cap := Nat.zero_lt_of_lt hroom
    have hwindow := h.window hcap
    rw [if_neg hfull, if_neg (by simpa using hfull), h.capacity, if_pos hwindow.head_lt, next_eq hcap h.capacity,
      Option.map_some]
    refine ⟨_, rfl, rfl, ?_, ?_, fun _ => hwindow.push hroom value⟩
    · change cb.size + 1 = (l ++ [value]).length
      rw [h.size, List.length_append, List.length_singleton]
    · rw [List.length_append, List.length_singleton]
      exact hroom

theorem pop_step (h : Holds cap cb l) :
    ∃ cb', cb.pop = some (cb', (bounded cap l .pop).2) ∧ Holds cap cb' (bounded cap l .pop).1 := by
  rw [CircularBuffer.pop, h.empty_eq]
  cases l with
  | nil => exact ⟨cb, rfl, h⟩
  | cons v l =>
    have hcap : 0 < cap := Nat.zero_lt_of_lt (Nat.lt_of_lt_of_le (Nat.succ_pos _) h.length_le)
    have hwindow := h.window hcap
    rw [List.isEmpty_cons, if_neg Bool.false_ne_true, h.capacity, if_pos hwindow.tail_lt, next_eq hcap h.capacity,
      Option.map_some, hwindow.read_tail]
    refine ⟨_, rfl, rfl, ?_, Nat.le_of_succ_le h.length_le, fun _ => hwindow.pop⟩
    change cb.size - 1 = l.length
    rw [h.size, List.length_cons, Nat.add_sub_cancel]

theorem step_holds (cb : CircularBuffer T) (l : List T) (call : Call T) (h : Holds cap cb l) :
    ∃ cb', step cb call = some (cb', (bounded cap l call).2) ∧ Holds cap cb' (bounded cap l call).1 := by
  cases call with
  | push value => exact push_step h value
  | pop => exact pop_step h
  | empty => exact ⟨cb, by rw [step, h.empty_eq, bounded], h⟩
  | full => exact ⟨cb, by rw [step, h.full_eq, bounded], h⟩
  | size => exact ⟨cb, by rw [step, h.size, bounded], h⟩

/-- **A bounded queue.** For every capacity, every sequence of calls on a new buffer is answered like the list, exceptions
included, with no index outside the vector and no remainder by zero. -/
theorem bounded_fifo [Inhabited T] (cap : ℕ) (calls : List (Call T)) :
    Machine.Agrees step (bounded cap) (Holds cap) (.new cap) [] calls :=
  Machine.agrees_of_step step_holds (new_holds cap) calls

end InterviewPrep.CircularQueue.BufferStatic
