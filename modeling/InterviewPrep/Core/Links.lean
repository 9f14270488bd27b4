/-
Lists linked through two arrays of cells, with `head` and `tail` variables and a null cell.

`Links z` are the arrays and the two variables. `nxt` and `prv` read `head` and `tail` as the links of the null cell, so a
well-formed list is a `Ring` through it (`Listed`). The manipulations are written as a program writes them, one guarded
assignment after the other:
- `insertAtHead`, `pushFront`: link a cell in at the head;
- `unlink`, `unlinkTail`: take a cell out, or the last one;
- `moveToHead`: unlink a cell and link it in at the head;
- `removeTail`: unlink the last cell and reset its links.
Each keeps `Listed` and writes no `next` outside the list and the cell it is called with.

`Chain next z x xs` is a list linked one way from `x`, such as a free list threaded through the same `next`.
-/
import InterviewPrep.Core.Ring

namespace InterviewPrep

structure Links {α : Type} (z : α) where
  next : α → α
  prev : α → α
  head : α
  tail : α

namespace Links

variable {α : Type} {z : α} [DecidableEq α]

def setNext (l : Links z) (a v : α) : Links z := { l with next := Function.update l.next a v }

def setPrev (l : Links z) (a v : α) : Links z := { l with prev := Function.update l.prev a v }

def setHead (l : Links z) (a : α) : Links z := { l with head := a }

def setTail (l : Links z) (a : α) : Links z := { l with tail := a }

/-! ## Operations -/

/-- the cell's own `prev` is null already -/
def insertAtHead (l : Links z) (i : α) : Links z :=
  let l := l.setNext i l.head
  let l := if l.head ≠ z then l.setPrev l.head i else l
  let l := l.setHead i
  if l.tail = z then l.setTail i else l

/-- the neighbours `p` and `n` of a cell point at each other -/
def splice (l : Links z) (p n : α) : Links z :=
  let l := if p ≠ z then l.setNext p n else l
  if n ≠ z then l.setPrev n p else l

def moveToHead (l : Links z) (i : α) : Links z :=
  if i = l.head then l
  else
    let p := l.prev i
    let n := l.next i
    let l := l.splice p n
    let l := if i = l.tail then l.setTail p else l
    (l.setPrev i z).insertAtHead i

def unlink (l : Links z) (i : α) : Links z :=
  let p := l.prev i
  let n := l.next i
  let l := l.splice p n
  let l := if i = l.head then l.setHead n else l
  if i = l.tail then l.setTail p else l

/-- `unlink` for the last cell -/
def unlinkTail (l : Links z) (t : α) : Links z :=
  let p := l.prev t
  let l := if p ≠ z then l.setNext p z else l
  let l := l.setTail p
  if l.tail = z then l.setHead z else l

/-- of a list that is not empty -/
def removeTail (l : Links z) : Links z := ((l.unlinkTail l.tail).setPrev l.tail z).setNext l.tail z

/-- `insertAtHead` for a cell whose links are null, which leaves `next` alone in an empty list -/
def pushFront (l : Links z) (i : α) : Links z :=
  let l := if l.head ≠ z then (l.setNext i l.head).setPrev l.head i else l
  let l := l.setHead i
  if l.tail = z then l.setTail i else l

/-! ## Links of the null cell -/

def nxt (l : Links z) (a : α) : α := if a = z then l.head else l.next a

def prv (l : Links z) (a : α) : α := if a = z then l.tail else l.prev a

variable {l : Links z} {a i v : α}

theorem nxt_cell (ha : a ≠ z) : l.nxt a = l.next a := if_neg ha

theorem prv_cell (ha : a ≠ z) : l.prv a = l.prev a := if_neg ha

@[simp] theorem nxt_null : l.nxt z = l.head := if_pos rfl

@[simp] theorem prv_null : l.prv z = l.tail := if_pos rfl

theorem nxt_setNext (ha : a ≠ z) : (l.setNext a v).nxt = Function.update l.nxt a v := by
  funext b
  rcases eq_or_ne b a with rfl | hb
  · simp [nxt, setNext, ha]
  · simp [nxt, setNext, hb]

theorem prv_setPrev (ha : a ≠ z) : (l.setPrev a v).prv = Function.update l.prv a v := by
  funext b
  rcases eq_or_ne b a with rfl | hb
  · simp [prv, setPrev, ha]
  · simp [prv, setPrev, hb]

theorem nxt_setHead : (l.setHead v).nxt = Function.update l.nxt z v := by
  funext b
  rcases eq_or_ne b z with rfl | hb
  · simp [nxt, setHead]
  · simp [nxt, setHead, hb]

theorem prv_setTail : (l.setTail v).prv = Function.update l.prv z v := by
  funext b
  rcases eq_or_ne b z with rfl | hb
  · simp [prv, setTail]
  · simp [prv, setTail, hb]

@[simp] theorem nxt_setPrev : (l.setPrev a v).nxt = l.nxt := rfl

@[simp] theorem nxt_setTail : (l.setTail v).nxt = l.nxt := rfl

@[simp] theorem prv_setNext : (l.setNext a v).prv = l.prv := rfl

@[simp] theorem prv_setHead : (l.setHead v).prv = l.prv := rfl

@[simp] theorem head_setNext : (l.setNext a v).head = l.head := rfl

@[simp] theorem tail_setNext : (l.setNext a v).tail = l.tail := rfl

@[simp] theorem tail_setPrev : (l.setPrev a v).tail = l.tail := rfl

omit [DecidableEq α] in
@[simp] theorem tail_setHead : (l.setHead v).tail = l.tail := rfl

omit [DecidableEq α] in
@[simp] theorem tail_setTail : (l.setTail v).tail = v := rfl

/-! ## Well-formed lists -/

/-- the cells from `head` by `next`, and from `tail` by `prev` -/
def Listed (l : Links z) (xs : List α) : Prop := Ring l.nxt l.prv z xs

variable {xs ys : List α}

theorem listed_empty (hhead : l.head = z) (htail : l.tail = z) : l.Listed [] where
  nodup := List.nodup_singleton z
  next := by simp [hhead]
  prev := by simp [htail]

theorem Listed.ne_null (h : l.Listed xs) (hi : i ∈ xs) : i ≠ z := by
  rintro rfl
  exact h.sentinel_notMem hi

theorem Listed.head_iff (h : l.Listed xs) (hi : i ∈ xs) : i = l.head ↔ l.prev i = z := by
  rw [eq_comm, ← nxt_null (l := l), h.nxt_eq_iff List.mem_cons_self (List.mem_cons_of_mem z hi), prv_cell (h.ne_null hi)]

theorem Listed.tail_iff (h : l.Listed xs) (hi : i ∈ xs) : i = l.tail ↔ l.next i = z := by
  rw [eq_comm, ← nxt_cell (h.ne_null hi), h.nxt_eq_iff (List.mem_cons_of_mem z hi) List.mem_cons_self, prv_null]

theorem Listed.empty_iff (h : l.Listed xs) : l.tail = z ↔ l.head = z := by
  rw [← prv_null (l := l), ← nxt_null (l := l), h.nxt_eq_iff List.mem_cons_self List.mem_cons_self]

theorem Listed.head_mem (h : l.Listed xs) : l.head ∈ z :: xs := nxt_null (l := l) ▸ h.nxt_mem List.mem_cons_self

/-- only the links of the cells of the list matter -/
theorem Listed.congr {l' : Links z} (h : l.Listed xs) (hhead : l'.head = l.head) (htail : l'.tail = l.tail)
    (hnext : ∀ a ∈ xs, l'.next a = l.next a) (hprev : ∀ a ∈ xs, l'.prev a = l.prev a) : l'.Listed xs := by
  refine Ring.congr h ?_ ?_
  · intro a ha
    rcases List.mem_cons.1 ha with rfl | ha
    · rw [nxt_null, nxt_null, hhead]
    · rw [nxt_cell (h.ne_null ha), nxt_cell (h.ne_null ha), hnext a ha]
  · intro a ha
    rcases List.mem_cons.1 ha with rfl | ha
    · rw [prv_null, prv_null, htail]
    · rw [prv_cell (h.ne_null ha), prv_cell (h.ne_null ha), hprev a ha]

theorem Listed.follow (h : l.Listed xs) {fuel : ℕ} (hfuel : xs.length < fuel) :
    Ring.follow l.next z fuel l.head = some xs := by
  rw [Ring.follow_congr fun x hx => (nxt_cell hx).symm, ← nxt_null (l := l)]
  exact h.follow_next hfuel

/-! ## The operations keep the list -/

theorem insertAtHead_next : (l.insertAtHead i).next = Function.update l.next i l.head := by
  simp only [insertAtHead, apply_ite next]
  split_ifs <;> rfl

theorem insertAtHead_listed (h : l.Listed xs) (hi : i ∉ z :: xs) (hprev : l.prev i = z) :
    (l.insertAtHead i).Listed (i :: xs) := by
  have hnull : i ≠ z := fun heq => hi (heq ▸ List.mem_cons_self)
  have hn : (l.insertAtHead i).nxt = Function.update (Function.update l.nxt i l.head) z i := by
    simp only [insertAtHead, apply_ite nxt, nxt_setTail, nxt_setHead, nxt_setPrev, ite_self, nxt_setNext hnull]
  have hp : (l.insertAtHead i).prv = Function.update l.prv l.head i := by
    rw [insertAtHead, apply_ite prv, prv_setTail, prv_setHead, apply_ite prv, prv_setNext]
    by_cases hh : l.head = z
    · simp [hh, h.empty_iff.2 hh]
    · simp [hh, mt h.empty_iff.1 hh, prv_setPrev]
  have hfirst : i ≠ l.head := by
    intro heq
    exact hi (heq ▸ h.head_mem)
  refine Ring.pushFront h hi ?_ ?_ ?_ ?_ ?_ ?_
  · rw [hn, Function.update_self]
  · rw [hn, Function.update_of_ne hnull, Function.update_self, nxt_null]
  · rw [hp, Function.update_of_ne hfirst, prv_cell hnull, hprev]
  · rw [hp, nxt_null, Function.update_self]
  · intro a ha hz
    rw [hn, Function.update_of_ne hz, Function.update_of_ne ha]
  · intro a _ ha
    rw [hp, Function.update_of_ne (nxt_null (l := l) ▸ ha)]

theorem pushFront_eq (hnext : l.next i = z) : l.pushFront i = l.insertAtHead i := by
  by_cases hh : l.head = z
  · have hsame : l.setNext i z = l := by
      rw [setNext, Function.update_eq_self_iff.2 hnext.symm]
    simp only [pushFront, insertAtHead, hh, hsame, ne_eq, not_true_eq_false, if_false]
  · simp only [pushFront, insertAtHead, head_setNext, ne_eq, hh, not_false_eq_true, if_true]

theorem pushFront_listed (h : l.Listed xs) (hi : i ∉ z :: xs) (hprev : l.prev i = z) (hnext : l.next i = z) :
    (l.pushFront i).Listed (i :: xs) := by
  rw [pushFront_eq hnext]
  exact insertAtHead_listed h hi hprev

theorem pushFront_next (hnext : l.next i = z) (ha : a ≠ i) : (l.pushFront i).next a = l.next a := by
  rw [pushFront_eq hnext, insertAtHead_next, Function.update_of_ne ha]

/-- links that bypass `i`, whose own links do not matter any more -/
theorem bypassed (h : l.Listed (xs ++ i :: ys)) {l' : Links z}
    (hn : ∀ a, a ≠ i → l'.nxt a = Function.update l.nxt (l.prv i) (l.nxt i) a)
    (hp : ∀ a, a ≠ i → l'.prv a = Function.update l.prv (l.nxt i) (l.prv i) a) : l'.Listed (xs ++ ys) := by
  have hnext : l.nxt i ≠ i := h.nxt_ne_self (by simp)
  have hprev : l.prv i ≠ i := (Ring.reverse h).nxt_ne_self (by simp)
  refine Ring.unlink h ?_ ?_ ?_ ?_
  · rw [hn _ hprev, Function.update_self]
  · rw [hp _ hnext, Function.update_self]
  · intro a hai ha
    rw [hn a hai, Function.update_of_ne ha]
  · intro a hai ha
    rw [hp a hai, Function.update_of_ne ha]

theorem splice_nxt (p n : α) : (l.splice p n).nxt = if p ≠ z then Function.update l.nxt p n else l.nxt := by
  rw [splice]
  split_ifs with hp hn hn <;> simp [nxt_setNext, *]

theorem splice_prv (p n : α) : (l.splice p n).prv = if n ≠ z then Function.update l.prv n p else l.prv := by
  rw [splice]
  split_ifs with hp hn hn <;> simp [prv_setPrev, *]

@[simp] theorem splice_head (p n : α) : (l.splice p n).head = l.head := by
  rw [splice]
  split_ifs <;> rfl

@[simp] theorem splice_tail (p n : α) : (l.splice p n).tail = l.tail := by
  rw [splice]
  split_ifs <;> rfl

theorem unlink_listed (h : l.Listed (xs ++ i :: ys)) : (l.unlink i).Listed (xs ++ ys) := by
  have hi : i ∈ xs ++ i :: ys := by simp
  have hnull := h.ne_null hi
  have hn : (l.unlink i).nxt = Function.update l.nxt (l.prv i) (l.nxt i) := by
    simp only [unlink, apply_ite nxt, nxt_setTail, ite_self, nxt_setHead, splice_head, splice_nxt, h.head_iff hi,
      prv_cell hnull, nxt_cell hnull]
    by_cases hp : l.prev i = z <;> simp [hp]
  have hp : (l.unlink i).prv = Function.update l.prv (l.nxt i) (l.prv i) := by
    simp only [unlink, apply_ite prv, apply_ite tail, prv_setTail, prv_setHead, tail_setHead, splice_tail, ite_self,
      splice_prv, h.tail_iff hi, prv_cell hnull, nxt_cell hnull]
    by_cases hn : l.next i = z <;> simp [hn]
  exact bypassed h (fun a _ => congrFun hn a) fun a _ => congrFun hp a

theorem unlinkTail_listed (h : l.Listed (xs ++ i :: ys)) (htail : i = l.tail) :
    (l.unlinkTail i).Listed (xs ++ ys) := by
  have hi : i ∈ xs ++ i :: ys := by simp
  have hnull := h.ne_null hi
  have hlast : l.nxt i = z := by
    rw [nxt_cell hnull]
    exact (h.tail_iff hi).1 htail
  have hn : (l.unlinkTail i).nxt = Function.update l.nxt (l.prv i) (l.nxt i) := by
    rw [unlinkTail, apply_ite nxt, nxt_setHead, nxt_setTail, prv_cell hnull, hlast]
    by_cases hp : l.prev i = z
    · simp [hp]
    · simp [hp, nxt_setNext hp]
  have hp : (l.unlinkTail i).prv = Function.update l.prv (l.nxt i) (l.prv i) := by
    rw [unlinkTail, apply_ite prv, prv_setHead, prv_setTail, ite_self, apply_ite prv, prv_setNext, ite_self,
      prv_cell hnull, hlast]
  exact bypassed h (fun a _ => congrFun hn a) fun a _ => congrFun hp a

theorem Listed.prev_mem (h : l.Listed xs) (hi : i ∈ xs) : l.prev i ∈ z :: xs := by
  have hmem := (Ring.reverse h).nxt_mem (x := i) (by simp [hi])
  rw [prv_cell (h.ne_null hi)] at hmem
  simpa using hmem

theorem moveToHead_listed (h : l.Listed (xs ++ i :: ys)) : (l.moveToHead i).Listed (i :: (xs ++ ys)) := by
  have hi : i ∈ xs ++ i :: ys := by simp
  have hnull := h.ne_null hi
  by_cases hhead : i = l.head
  · obtain rfl := h.first_eq (nxt_null.trans hhead.symm)
    rw [moveToHead, if_pos hhead]
    exact h
  rw [moveToHead, if_neg hhead]
  have hp : l.prev i ≠ z := mt (h.head_iff hi).2 hhead
  apply insertAtHead_listed _ h.middle_notMem
  · exact Function.update_self ..
  -- the state before the cell goes in at the head: its links are bypassed and its `prev` is reset
  refine bypassed h ?_ ?_
  · intro a _
    simp only [nxt_setPrev, apply_ite nxt, nxt_setTail, ite_self, splice_nxt, if_pos hp, prv_cell hnull, nxt_cell hnull]
  · intro a ha
    simp only [prv_setPrev hnull, Function.update_of_ne ha, apply_ite prv, prv_setTail, splice_tail, splice_prv,
      h.tail_iff hi, prv_cell hnull, nxt_cell hnull]
    by_cases hn : l.next i = z <;> simp [hn]

/-- of the cells outside the list -/
theorem moveToHead_next (h : l.Listed xs) (hi : i ∈ xs) (ha : a ∉ z :: xs) : (l.moveToHead i).next a = l.next a := by
  have hai : a ≠ i := fun heq => ha (heq ▸ List.mem_cons_of_mem z hi)
  have hap : a ≠ l.prev i := fun heq => ha (heq ▸ h.prev_mem hi)
  rw [moveToHead]
  split_ifs with hhead
  · rfl
  · rw [insertAtHead_next, Function.update_of_ne hai]
    simp only [splice, setPrev, setTail, setNext, apply_ite next, ite_self]
    split_ifs
    · exact Function.update_of_ne hap ..
    · rfl

theorem removeTail_listed (h : l.Listed (xs ++ [i])) : l.removeTail.Listed xs := by
  have htail : l.tail = i := prv_null (l := l) ▸ h.last
  have hout := unlinkTail_listed h htail.symm
  rw [List.append_nil] at hout
  have hne : ∀ a ∈ xs, a ≠ i := by
    intro a ha heq
    apply h.middle_notMem
    rw [← heq, List.append_nil]
    exact List.mem_cons_of_mem z ha
  rw [removeTail, htail]
  refine hout.congr rfl rfl ?_ ?_
  · intro a ha
    exact Function.update_of_ne (hne a ha) ..
  · intro a ha
    exact Function.update_of_ne (hne a ha) ..

theorem removeTail_next (h : l.Listed (xs ++ [i])) (ha : a ∉ z :: (xs ++ [i])) : l.removeTail.next a = l.next a := by
  have hi : i ∈ xs ++ [i] := by simp
  have htail : l.tail = i := prv_null (l := l) ▸ h.last
  have hai : a ≠ i := fun heq => ha (by simp [heq])
  have hap : a ≠ l.prev i := fun heq => ha (heq ▸ h.prev_mem hi)
  simp only [removeTail, unlinkTail, htail, setPrev, setNext, setTail, setHead, apply_ite next, ite_self]
  rw [Function.update_of_ne hai]
  split_ifs
  · exact Function.update_of_ne hap ..
  · rfl

end Links

/-! ## One-way lists -/

/-- the cells from `x` by `next` are `xs` -/
def Chain {α : Type} (next : α → α) (z : α) : α → List α → Prop
  | x, [] => x = z
  | x, y :: ys => x = y ∧ y ≠ z ∧ Chain next z (next y) ys

namespace Chain

variable {α : Type} {next next' : α → α} {z x : α} {xs : List α}

theorem congr (h : Chain next z x xs) (hnext : ∀ a ∈ xs, next' a = next a) : Chain next' z x xs := by
  induction xs generalizing x with
  | nil => exact h
  | cons y ys ih =>
    obtain ⟨hx, hy, hrest⟩ := h
    refine ⟨hx, hy, ?_⟩
    rw [hnext y List.mem_cons_self]
    exact ih hrest fun a ha => hnext a (List.mem_cons_of_mem y ha)

theorem follow [DecidableEq α] (h : Chain next z x xs) {fuel : ℕ} (hfuel : xs.length < fuel) :
    Ring.follow next z fuel x = some xs := by
  induction xs generalizing x fuel with
  | nil =>
    obtain ⟨fuel, rfl⟩ : ∃ k, fuel = k + 1 := ⟨fuel - 1, by simp at hfuel; omega⟩
    have hx : x = z := h
    rw [Ring.follow, if_pos hx]
  | cons y ys ih =>
    obtain ⟨rfl, hy, hrest⟩ := h
    obtain ⟨fuel, rfl⟩ : ∃ k, fuel = k + 1 := ⟨fuel - 1, by simp at hfuel; omega⟩
    rw [Ring.follow, if_neg hy, ih hrest (by simpa using hfuel), Option.map_some]

end Chain

end InterviewPrep
