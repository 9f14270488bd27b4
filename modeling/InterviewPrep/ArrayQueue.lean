/-
The array queue of queue/queue.c.

`front` and `rear` are indices into an array of `capacity` ints, -1 when the queue is empty. `enqueue` moves `rear`, `dequeue`
moves `front`, and both go back to -1 only when the last element leaves. The array is not used again from the start: the queue
is full for `isFull` as soon as `rear` is at the end, whatever has been dequeued. An access outside the array is a step that is
not possible (`none`).

- `refines_linear`: the calls, with `front` and `rear` among them, are answered like those of a queue that takes at most
  `capacity` elements between two times at which it is empty, with no access outside the array;
- `fifo_iff`: they are answered like those of a queue of at most `capacity` elements exactly if no `enqueue` comes when
  `rear` is at the end and `front` is not at the start;
- `full_with_room` is one that does.
-/
import InterviewPrep.Core.Machine

namespace InterviewPrep.ArrayQueue

/-! ## Model -/

/-- `queue_t` -/
structure Queue where
  queue : List ℤ
  front : ℤ
  rear : ℤ
  capacity : ℤ

inductive Call where
  | enqueue (val : ℤ)
  | dequeue
  | front
  | rear
  deriving DecidableEq

/-- `array` is what `malloc` returns, with any contents -/
def queueInit (array : List ℤ) : Queue := ⟨array, -1, -1, array.length⟩

namespace Queue

def isFull (q : Queue) : Bool := q.capacity = q.rear + 1

def isEmpty (q : Queue) : Bool := q.front = -1

/-- an element of the array -/
def read (q : Queue) (i : ℤ) : Option ℤ := if 0 ≤ i then q.queue[i.toNat]? else none

def write (q : Queue) (i val : ℤ) : Option Queue :=
  if 0 ≤ i ∧ i < q.queue.length then some { q with queue := q.queue.set i.toNat val } else none

def enqueue (q : Queue) (val : ℤ) : Option (Queue × ℤ) :=
  if q.isFull then some (q, -1)
  else
    let q := if q.front = -1 then { q with front := 0 } else q
    let q := { q with rear := q.rear + 1 }
    (q.write q.rear val).map fun q => (q, 0)

def dequeue (q : Queue) : Option (Queue × ℤ) :=
  if q.isEmpty then some (q, -1)
  else
    (q.read q.front).map fun v =>
      if q.front = q.rear then ({ q with front := -1, rear := -1 }, v) else ({ q with front := q.front + 1 }, v)

def getFront (q : Queue) : Option ℤ := if q.front = -1 then some (-1) else q.read q.front

def getRear (q : Queue) : Option ℤ := if q.rear = -1 then some (-1) else q.read q.rear

end Queue

def step (q : Queue) : Call → Option (Queue × ℤ)
  | .enqueue val => q.enqueue val
  | .dequeue => q.dequeue
  | .front => q.getFront.map fun v => (q, v)
  | .rear => q.getRear.map fun v => (q, v)

/-- a queue of at most `c` elements, the oldest first -/
def fifo (c : ℕ) (l : List ℤ) : Call → List ℤ × ℤ
  | .enqueue val => if l.length = c then (l, -1) else (l ++ [val], 0)
  | .dequeue => (l.tail, l.head?.getD (-1))
  | .front => (l, l.head?.getD (-1))
  | .rear => (l, l.getLast?.getD (-1))

/-- the elements, the oldest first, and how many came since the queue was empty -/
structure Linear where
  elements : List ℤ
  used : ℕ

/-- a queue that takes at most `c` elements until it is empty again -/
def linear (c : ℕ) (t : Linear) : Call → Linear × ℤ
  | .enqueue val => if t.used = c then (t, -1) else (⟨t.elements ++ [val], t.used + 1⟩, 0)
  | .dequeue => (⟨t.elements.tail, if t.elements.length ≤ 1 then 0 else t.used⟩, t.elements.head?.getD (-1))
  | .front => (t, t.elements.head?.getD (-1))
  | .rear => (t, t.elements.getLast?.getD (-1))

/-- an `enqueue` finds room behind `rear`, or no room at all -/
def Clear (q : Queue) : Call → Prop
  | .enqueue _ => q.rear + 1 = q.capacity → q.front = 0
  | _ => True

instance (q : Queue) : ∀ call, Decidable (Clear q call)
  | .enqueue _ => inferInstanceAs (Decidable (_ → _))
  | .dequeue => isTrue trivial
  | .front => isTrue trivial
  | .rear => isTrue trivial

/-! ## Runs -/

/-- the array holds `l` from `front` to `rear` -/
inductive Holds (c : ℕ) : Queue → List ℤ → Prop
  | empty {array : List ℤ} (hlength : array.length = c) : Holds c ⟨array, -1, -1, c⟩ []
  | stored {array : List ℤ} {l : List ℤ} (f : ℕ) (hlength : array.length = c) (hne : l ≠ []) (hfits : f + l.length ≤ c)
      (helements : (array.drop f).take l.length = l) : Holds c ⟨array, f, f + l.length - 1, c⟩ l

variable {c : ℕ} {q : Queue} {l array : List ℤ} {f : ℕ}

/-- an element of the queue is where it should be -/
theorem getElem?_stored (helements : (array.drop f).take l.length = l) {k : ℕ} (hk : k < l.length) :
    array[f + k]? = l[k]? := by
  calc array[f + k]? = (array.drop f)[k]? := List.getElem?_drop.symm
    _ = ((array.drop f).take l.length)[k]? := (List.getElem?_take_of_lt hk).symm
    _ = l[k]? := by rw [helements]

/-- the element behind the last one is written -/
theorem elements_set (helements : (array.drop f).take l.length = l) (hroom : f + l.length < array.length) (val : ℤ) :
    ((array.set (f + l.length) val).drop f).take (l ++ [val]).length = l ++ [val] := by
  have hlt : l.length < (array.drop f).length := by
    rw [List.length_drop]
    omega
  rw [List.drop_set, if_neg (by omega), Nat.add_sub_cancel_left, List.length_append, List.length_singleton,
    List.take_add_one, List.take_set_of_le le_rfl, helements, List.getElem?_set_self hlt, Option.toList_some]

/-- an `enqueue` that is not refused, with `front` already set -/
theorem write_holds (hlength : array.length = c) (hroom : f + l.length < c)
    (helements : (array.drop f).take l.length = l) (val : ℤ) :
    ∃ q', Queue.write ⟨array, f, f + l.length - 1 + 1, c⟩ (f + l.length - 1 + 1) val = some q' ∧
      q'.rear = f + l.length - 1 + 1 ∧ Holds c q' (l ++ [val]) := by
  have hindex : (f + l.length - 1 + 1 : ℤ) = (f + l.length : ℕ) := by
    push_cast
    ring
  have hin : (0 : ℤ) ≤ f + l.length - 1 + 1 ∧ (f + l.length - 1 + 1 : ℤ) < array.length := by
    omega
  refine ⟨⟨array.set (f + l.length) val, f, f + l.length - 1 + 1, c⟩, ?_, rfl, ?_⟩
  · unfold Queue.write
    rw [if_pos hin]
    dsimp only
    rw [hindex, Int.toNat_natCast]
  · have hrear : (f + l.length - 1 + 1 : ℤ) = f + (l ++ [val]).length - 1 := by
      rw [List.length_append, List.length_singleton]
      push_cast
      ring
    rw [hrear]
    refine .stored f ?_ (by simp) ?_ (elements_set helements (hlength ▸ hroom) val)
    · rw [List.length_set, hlength]
    · rw [List.length_append, List.length_singleton]
      omega

theorem rear_lt (h : Holds c q l) : q.rear + 1 ≤ c := by
  cases h with
  | empty hlength => simp
  | stored f hlength hne hfits helements =>
    dsimp only
    omega

theorem enqueue_full (h : Holds c q l) (val : ℤ) (hend : q.rear + 1 = c) : q.enqueue val = some (q, -1) := by
  have hcapacity : q.capacity = c := by cases h <;> rfl
  exact if_pos (decide_eq_true (hcapacity.trans hend.symm))

theorem enqueue_room (h : Holds c q l) (val : ℤ) (hroom : q.rear + 1 < c) :
    ∃ q', q.enqueue val = some (q', 0) ∧ q'.rear = q.rear + 1 ∧ Holds c q' (l ++ [val]) := by
  have hnot : ¬q.isFull = true := by
    have hcapacity : q.capacity = c := by cases h <;> rfl
    rw [Queue.isFull, decide_eq_true_eq]
    omega
  cases h with
  | @empty array hlength =>
    obtain ⟨q', hwrite, hrear, hq'⟩ := write_holds (f := 0) (l := []) hlength (by dsimp only at hroom; simp; omega) rfl val
    refine ⟨q', ?_, hrear, hq'⟩
    unfold Queue.enqueue
    rw [if_neg hnot]
    exact congrArg (Option.map fun q => (q, 0)) hwrite
  | @stored array l f hlength hne hfits helements =>
    obtain ⟨q', hwrite, hrear, hq'⟩ := write_holds hlength (by dsimp only at hroom; omega) helements val
    refine ⟨q', ?_, hrear, hq'⟩
    unfold Queue.enqueue
    rw [if_neg hnot]
    dsimp only
    rw [if_neg (by omega)]
    exact congrArg (Option.map fun q => (q, 0)) hwrite

/-- the number stored, when `rear` is at the end -/
theorem length_of_end (hc : 0 < c) (h : Holds c q l) (hend : q.rear + 1 = c) : q.front + l.length = c := by
  cases h with
  | empty hlength =>
    dsimp only at hend
    omega
  | stored f hlength hne hfits helements =>
    dsimp only at hend ⊢
    omega

theorem length_of_room (h : Holds c q l) (hroom : q.rear + 1 < c) : l.length < c := by
  cases h with
  | empty hlength =>
    dsimp only at hroom
    simp
    omega
  | stored f hlength hne hfits helements =>
    dsimp only at hroom
    omega

theorem head?_stored (hne : l ≠ []) (helements : (array.drop f).take l.length = l) :
    array[f]? = some (l.head?.getD (-1)) := by
  have hpos := List.length_pos_iff.2 hne
  have hat := getElem?_stored helements hpos
  rw [Nat.add_zero] at hat
  rw [hat, List.head?_eq_getElem?, List.getElem?_eq_getElem hpos, Option.getD_some]

theorem dequeue_good (h : Holds c q l) :
    ∃ q', q.dequeue = some (q', l.head?.getD (-1)) ∧ Holds c q' l.tail ∧
      q'.rear = if l.length ≤ 1 then -1 else q.rear := by
  cases h with
  | empty hlength => exact ⟨_, rfl, .empty hlength, rfl⟩
  | @stored array l f hlength hne hfits helements =>
    have hpos := List.length_pos_iff.2 hne
    have hread : Queue.read ⟨array, f, f + l.length - 1, c⟩ f = some (l.head?.getD (-1)) := by
      rw [Queue.read, if_pos (Int.natCast_nonneg f), Int.toNat_natCast]
      exact head?_stored hne helements
    have hnot : ¬Queue.isEmpty ⟨array, f, f + l.length - 1, c⟩ = true := by
      rw [Queue.isEmpty, decide_eq_true_eq]
      dsimp only
      omega
    by_cases hone : l.length = 1
    · refine ⟨⟨array, -1, -1, c⟩, ?_, ?_, (if_pos hone.le).symm⟩
      · unfold Queue.dequeue
        rw [if_neg hnot, hread, Option.map_some, if_pos (by dsimp only; omega)]
      · rw [List.length_eq_zero_iff.1 (show l.tail.length = 0 by rw [List.length_tail, hone])]
        exact .empty hlength
    · refine ⟨⟨array, f + 1, f + l.length - 1, c⟩, ?_, ?_, (if_neg (by omega)).symm⟩
      · unfold Queue.dequeue
        rw [if_neg hnot, hread, Option.map_some, if_neg (by dsimp only; omega)]
      · have hlen : l.tail.length = l.length - 1 := List.length_tail
        have hrear : (f + l.length - 1 : ℤ) = (f + 1 : ℕ) + l.tail.length - 1 := by omega
        rw [hrear, show (f + 1 : ℤ) = (f + 1 : ℕ) from rfl]
        refine .stored (f + 1) hlength ?_ (by omega) ?_
        · rw [← List.length_pos_iff]
          omega
        · calc (array.drop (f + 1)).take l.tail.length
              = ((array.drop f).drop 1).take (l.length - 1) := by rw [hlen, List.drop_drop]
            _ = ((array.drop f).take l.length).drop 1 := List.drop_take.symm
            _ = l.tail := by rw [helements, List.drop_one]

theorem front_good (h : Holds c q l) : q.getFront = some (l.head?.getD (-1)) := by
  cases h with
  | empty hlength => rfl
  | @stored array l f hlength hne hfits helements =>
    unfold Queue.getFront Queue.read
    dsimp only
    rw [if_neg (by omega), if_pos (Int.natCast_nonneg f), Int.toNat_natCast]
    exact head?_stored hne helements

theorem rear_good (h : Holds c q l) : q.getRear = some (l.getLast?.getD (-1)) := by
  cases h with
  | empty hlength => rfl
  | @stored array l f hlength hne hfits helements =>
    have hpos := List.length_pos_iff.2 hne
    have hindex : (f + l.length - 1 : ℤ).toNat = f + (l.length - 1) := by omega
    unfold Queue.getRear Queue.read
    dsimp only
    rw [if_neg (by omega), if_pos (by omega), hindex, getElem?_stored helements (by omega), List.getLast?_eq_getElem?,
      List.getElem?_eq_getElem (by omega), Option.getD_some]

/-! ### Against the queue that takes `c` elements -/

/-- `rear` counts what came since the queue was empty -/
def Counted (c : ℕ) (q : Queue) (t : Linear) : Prop := Holds c q t.elements ∧ q.rear + 1 = t.used

theorem step_linear (q : Queue) (t : Linear) (call : Call) (h : Counted c q t) :
    ∃ q', step q call = some (q', (linear c t call).2) ∧ Counted c q' (linear c t call).1 := by
  obtain ⟨hholds, hused⟩ := h
  cases call with
  | enqueue val =>
    by_cases hfull : t.used = c
    · rw [linear, if_pos hfull]
      exact ⟨q, enqueue_full hholds val (by omega), hholds, hused⟩
    · have hle := rear_lt hholds
      obtain ⟨q', henqueue, hrear, hq'⟩ := enqueue_room hholds val (by omega)
      rw [linear, if_neg hfull]
      refine ⟨q', henqueue, hq', ?_⟩
      rw [hrear, hused]
      rfl
  | dequeue =>
    obtain ⟨q', hdequeue, hq', hrear⟩ := dequeue_good hholds
    refine ⟨q', hdequeue, hq', ?_⟩
    rw [hrear, linear]
    dsimp only
    split_ifs
    · rfl
    · exact hused
  | front => exact ⟨q, by rw [step, front_good hholds]; rfl, hholds, hused⟩
  | rear => exact ⟨q, by rw [step, rear_good hholds]; rfl, hholds, hused⟩

/-- **The queue.** On an array of `c` ints, every list of calls is answered, with every access inside the array, like one on a
queue that refuses an element exactly if `c` have come since it was last empty, and that gives out its elements in the order
in which they came; the array then holds its elements. -/
theorem refines_linear (array : List ℤ) (calls : List Call) :
    Machine.Agrees step (linear array.length) (fun q t => Holds array.length q t.elements) (queueInit array) ⟨[], 0⟩ calls := by
  have hinit : Counted array.length (queueInit array) ⟨[], 0⟩ := ⟨.empty rfl, rfl⟩
  exact (Machine.agrees_of_step step_linear hinit calls).mono fun q t h => h.1

/-- **Full with room.** On an array of two ints, two elements are enqueued and one is dequeued; the next `enqueue` is refused
with one element stored. -/
theorem full_with_room :
    (Machine.runTotal (fifo 2) [] [.enqueue 1, .enqueue 2, .dequeue, .enqueue 3]).2 = [0, 0, 1, 0] ∧
    ¬Machine.Agrees step (fifo 2) (Holds 2) (queueInit [0, 0]) [] [.enqueue 1, .enqueue 2, .dequeue, .enqueue 3] := by
  refine ⟨by decide, fun h => ?_⟩
  obtain ⟨q, hrun, -⟩ := h
  cases hrun

/-! ### Against the queue of `c` elements -/

theorem step_good (hc : 0 < c) (q : Queue) (l : List ℤ) (call : Call) (h : Holds c q l) (hclear : Clear q call) :
    ∃ q', step q call = some (q', (fifo c l call).2) ∧ Holds c q' (fifo c l call).1 := by
  cases call with
  | enqueue val =>
    rcases (rear_lt h).eq_or_lt with hend | hroom
    · -- `rear` is at the end, so `front` is at the start
      have hcapacity : q.capacity = c := by cases h <;> rfl
      have hlength := length_of_end hc h hend
      rw [hclear (hend.trans hcapacity.symm)] at hlength
      rw [fifo, if_pos (by omega)]
      exact ⟨q, enqueue_full h val hend, h⟩
    · obtain ⟨q', henqueue, -, hq'⟩ := enqueue_room h val hroom
      rw [fifo, if_neg (length_of_room h hroom).ne]
      exact ⟨q', henqueue, hq'⟩
  | dequeue =>
    obtain ⟨q', hdequeue, hq', -⟩ := dequeue_good h
    exact ⟨q', hdequeue, hq'⟩
  | front => exact ⟨q, by rw [step, front_good h]; rfl, h⟩
  | rear => exact ⟨q, by rw [step, rear_good h]; rfl, h⟩

/-- refused, although fewer than `c` elements are stored -/
theorem step_bad (hc : 0 < c) (q : Queue) (l : List ℤ) (call : Call) (h : Holds c q l) (hclear : ¬Clear q call)
    (q' : Queue) : step q call ≠ some (q', (fifo c l call).2) := by
  cases call with
  | enqueue val =>
    rw [Clear] at hclear
    push Not at hclear
    have hcapacity : q.capacity = c := by cases h <;> rfl
    have hend := hclear.1.trans hcapacity
    have hlength := length_of_end hc h hend
    have hmoved := hclear.2
    rw [step, enqueue_full h val hend, fifo, if_neg (by omega)]
    intro heq
    cases (Prod.mk.inj (Option.some.inj heq)).2
  | dequeue => exact absurd trivial hclear
  | front => exact absurd trivial hclear
  | rear => exact absurd trivial hclear

/-- **When it is a bounded queue.** On an array of `c ≥ 1` ints, a list of calls is answered like one on a queue of at most
`c` elements, with every access inside the array, if and only if no `enqueue` of it comes when `rear` is at the end of the
array and `front` is not at its start. -/
theorem fifo_iff (array : List ℤ) (hc : 0 < array.length) (calls : List Call) :
    Machine.Agrees step (fifo array.length) (Holds array.length) (queueInit array) [] calls ↔
      Machine.Meets (Machine.next step) Clear (queueInit array) calls :=
  Machine.agrees_iff (step_good hc) (step_bad hc) (fun _ _ h => h) (.empty rfl) calls

end InterviewPrep.ArrayQueue
