/-
The linked queue of queue/queueUsingLinkedList.c; `ThreadSafeQueue` of threadPool/threadSafeQueue.cpp links and takes out its
nodes in the same way.

`enqueue` makes a node and links it behind the rear, or makes it both front and rear where the rear is null; `dequeue` takes the
front out and frees it, and clears the rear with the last node. A node that is dereferenced or freed without being allocated is
`none`. What `malloc` returns is part of the call; it does not fail.

- `linkIn_spec` and `takeOut_spec`: what the two do to a queue with its nodes in order;
- `refines_fifo`: for every sequence of calls, if `malloc` returns addresses that are not in use, no call goes wrong, all
  answers are those of a first-in first-out list, and the nodes allocated are those of the queue.
-/
import InterviewPrep.Core.Machine
import InterviewPrep.Core.NodeHeap

namespace InterviewPrep.LinkedQueue

/-! ## Model -/

structure Queue (Addr : Type) where
  front : Option Addr
  rear : Option Addr

abbrev Heap (Addr : Type) := NodeHeap ℤ Addr

variable {Addr : Type} [DecidableEq Addr]

/-- `createQueue` -/
def createQueue : Queue Addr := ⟨none, none⟩

/-- a new node is put in -/
def linkIn (h : Heap Addr) (q : Queue Addr) (newNode : Addr) : Option (Heap Addr × Queue Addr) :=
  match q.rear with
  | none => some (h, ⟨some newNode, some newNode⟩)
  | some rear => (h rear).map fun node =>
      (Function.update h rear (some { node with next := some newNode }), ⟨q.front, some newNode⟩)

/-- the front node is taken out and freed -/
def takeOut (h : Heap Addr) (q : Queue Addr) (temp : Addr) : Option (Heap Addr × Queue Addr × ℤ) :=
  (h temp).map fun node =>
    (Function.update h temp none, ⟨node.next, if node.next = none then none else q.rear⟩, node.value)

def enqueue (h : Heap Addr) (q : Queue Addr) (data : ℤ) (newNode : Addr) : Option (Heap Addr × Queue Addr) :=
  linkIn (Function.update h newNode (some ⟨data, none⟩)) q newNode

def dequeue (h : Heap Addr) (q : Queue Addr) : Option (Heap Addr × Queue Addr × ℤ) :=
  match q.front with
  | none => some (h, q, -1)
  | some temp => takeOut h q temp

def isEmpty (q : Queue Addr) : Bool := q.front.isNone

def front (h : Heap Addr) (q : Queue Addr) : Option ℤ :=
  if isEmpty q then some (-1) else q.front.bind fun a => (h a).map HeapNode.value

def rear (h : Heap Addr) (q : Queue Addr) : Option ℤ :=
  if isEmpty q then some (-1) else q.rear.bind fun a => (h a).map HeapNode.value

/-! ## The two ends -/

/-- the nodes of the queue, in order, with their values -/
structure IsQueue (h : Heap Addr) (q : Queue Addr) (l : List (Addr × ℤ)) : Prop where
  chain : NodeChain h q.front l
  rear : q.rear = (l.map Prod.fst).getLast?

variable {h h' : Heap Addr} {q : Queue Addr} {l : List (Addr × ℤ)} {a : Addr} {v : ℤ}

omit [DecidableEq Addr] in
theorem isQueue_create (h : Heap Addr) : IsQueue h createQueue [] := ⟨.nil, rfl⟩

omit [DecidableEq Addr] in
theorem IsQueue.congr (hq : IsQueue h q l) (hsame : ∀ a ∈ l.map Prod.fst, h' a = h a) : IsQueue h' q l :=
  ⟨hq.chain.congr hsame, hq.rear⟩

/-- a node that is allocated, null-terminated and not in the queue yet goes to its end -/
theorem linkIn_spec (hq : IsQueue h q l) (ha : h a = some ⟨v, none⟩) (hnew : a ∉ l.map Prod.fst) :
    ∃ h' q', linkIn h q a = some (h', q') ∧ IsQueue h' q' (l ++ [(a, v)]) ∧ ∀ c, c ∉ l.map Prod.fst → h' c = h c := by
  rcases l.eq_nil_or_concat' with rfl | ⟨l, ⟨b, w⟩, rfl⟩
  · refine ⟨h, ⟨some a, some a⟩, ?_, ⟨NodeChain.nil.cons ha, rfl⟩, fun _ _ => rfl⟩
    rw [linkIn, hq.rear]
    rfl
  · have hnodup := hq.chain.nodup
    rw [List.map_append, List.map_cons, List.map_nil] at hnew hnodup
    have hrear : q.rear = some b := by
      rw [hq.rear, List.map_append, List.map_cons, List.map_nil, List.getLast?_append_of_ne_nil _ (List.cons_ne_nil b [])]
      rfl
    obtain ⟨node, hnode⟩ := Option.isSome_iff_exists.1
      (hq.chain.allocated (show b ∈ (l ++ [(b, w)]).map Prod.fst by simp))
    have hvalue := hq.chain.values (b, w) (by simp)
    rw [hnode, Option.map_some] at hvalue
    obtain rfl := Option.some.inj hvalue
    have hab : a ≠ b := fun heq => hnew (by simp [heq])
    have hbl : b ∉ l.map Prod.fst := fun hmem => (List.nodup_append.1 hnodup).2.2 b hmem b (by simp) rfl
    have hlink : linkIn h q a = some (Function.update h b (some { node with next := some a }), ⟨q.front, some a⟩) := by
      rw [linkIn, hrear]
      dsimp only
      rw [hnode, Option.map_some]
    refine ⟨_, _, hlink, ⟨?_, ?_⟩, fun c hc => ?_⟩
    · rw [List.append_assoc, List.singleton_append]
      refine hq.chain.concat ?_ ?_ fun c hc => ?_
      · rw [Function.update_self]
      · rw [Function.update_of_ne hab, ha]
      · rw [Function.update_of_ne fun heq => hbl (by rw [← heq]; exact hc)]
    · simp
    · rw [Function.update_of_ne fun heq => hc (by simp [heq])]

/-- the front node goes, and is not allocated any more -/
theorem takeOut_spec (hq : IsQueue h q ((a, v) :: l)) :
    ∃ h' q', takeOut h q a = some (h', q', v) ∧ IsQueue h' q' l ∧ h' a = none ∧ ∀ c, c ≠ a → h' c = h c := by
  obtain ⟨-, n, ha, hrest⟩ := hq.chain.uncons
  have hnodup := hq.chain.nodup
  rw [List.map_cons, List.nodup_cons] at hnodup
  refine ⟨_, _, by rw [takeOut, ha, Option.map_some], ⟨?_, ?_⟩, Function.update_self .., fun c hc => Function.update_of_ne hc ..⟩
  · refine hrest.congr fun c hc => Function.update_of_ne ?_ _ _
    rintro rfl
    exact hnodup.1 hc
  · change (if n = none then none else q.rear) = _
    rw [hrest.head_eq, hq.rear]
    cases l with
    | nil => rfl
    | cons p l => simp

/-! ## Calls -/

structure St (Addr : Type) where
  heap : Heap Addr
  q : Queue Addr

def St.init : St Addr := ⟨fun _ => none, createQueue⟩

/-- `newNode` is what `malloc` returns -/
inductive Call (Addr : Type) where
  | enqueue (data : ℤ) (newNode : Addr)
  | dequeue
  | isEmpty
  | front
  | rear

/-- `enqueue` has no answer -/
inductive Answer where
  | done
  | int (v : ℤ)
  | bool (b : Bool)
  deriving DecidableEq

/-- `malloc` does not return an address in use -/
def step (s : St Addr) : Call Addr → Option (St Addr × Answer)
  | .enqueue data newNode =>
    if s.heap newNode = none then (enqueue s.heap s.q data newNode).map fun r => (⟨r.1, r.2⟩, .done) else none
  | .dequeue => (dequeue s.heap s.q).map fun r => (⟨r.1, r.2.1⟩, .int r.2.2)
  | .isEmpty => some (s, .bool (isEmpty s.q))
  | .front => (front s.heap s.q).map fun v => (s, .int v)
  | .rear => (rear s.heap s.q).map fun v => (s, .int v)

/-- a first-in first-out list -/
def fifo (xs : List ℤ) : Call Addr → List ℤ × Answer
  | .enqueue data _ => (xs ++ [data], .done)
  | .dequeue => (xs.tail, .int (xs.headD (-1)))
  | .isEmpty => (xs, .bool xs.isEmpty)
  | .front => (xs, .int (xs.headD (-1)))
  | .rear => (xs, .int (xs.getLastD (-1)))

def Unused (s : St Addr) : Call Addr → Prop
  | .enqueue _ newNode => s.heap newNode = none
  | _ => True

/-- the heap has the nodes of the queue, with these values, and no others -/
def Holds (s : St Addr) (xs : List ℤ) : Prop :=
  ∃ l, IsQueue s.heap s.q l ∧ l.map Prod.snd = xs ∧ ∀ a, (s.heap a).isSome ↔ a ∈ l.map Prod.fst

variable {s : St Addr} {xs : List ℤ}

theorem enqueue_holds (hs : Holds s xs) (data : ℤ) {newNode : Addr} (hnew : s.heap newNode = none) :
    ∃ s', step s (.enqueue data newNode) = some (s', .done) ∧ Holds s' (xs ++ [data]) := by
  obtain ⟨l, hq, rfl, hlive⟩ := hs
  have hnotMem : newNode ∉ l.map Prod.fst := fun hmem => by
    have hsome := (hlive newNode).2 hmem
    rw [hnew] at hsome
    cases hsome
  have hmade : IsQueue (Function.update s.heap newNode (some ⟨data, none⟩)) s.q l :=
    hq.congr fun a ha => Function.update_of_ne (fun heq => hnotMem (by rwa [heq] at ha)) _ _
  obtain ⟨h', q', hlink, hq', hframe⟩ := linkIn_spec hmade (Function.update_self ..) hnotMem
  refine ⟨⟨h', q'⟩, ?_, l ++ [(newNode, data)], hq', by simp, fun a => ?_⟩
  · rw [step, if_pos hnew, enqueue, hlink, Option.map_some]
  · rw [List.map_append, List.mem_append, List.map_cons, List.map_nil, List.mem_singleton]
    by_cases ha : a ∈ l.map Prod.fst
    · exact iff_of_true (hq'.chain.allocated (by rw [List.map_append]; exact List.mem_append_left _ ha)) (Or.inl ha)
    · change (h' a).isSome ↔ _
      rw [hframe a ha]
      rcases eq_or_ne a newNode with rfl | hne
      · rw [Function.update_self]
        exact iff_of_true rfl (Or.inr rfl)
      · rw [Function.update_of_ne hne, hlive a]
        exact ⟨Or.inl, fun hor => hor.resolve_right hne⟩

theorem dequeue_holds (hs : Holds s xs) :
    ∃ s', step s .dequeue = some (s', .int (xs.headD (-1))) ∧ Holds s' xs.tail := by
  obtain ⟨l, hq, rfl, hlive⟩ := hs
  cases l with
  | nil =>
    have hfront : s.q.front = none := hq.chain.head_eq
    refine ⟨s, ?_, [], hq, rfl, hlive⟩
    rw [step, dequeue, hfront]
    rfl
  | cons p l =>
    obtain ⟨a, v⟩ := p
    obtain ⟨h', q', htake, hq', hfreed, hframe⟩ := takeOut_spec hq
    have hfront : s.q.front = some a := hq.chain.head_eq
    refine ⟨⟨h', q'⟩, ?_, l, hq', rfl, fun c => ?_⟩
    · rw [step, dequeue, hfront]
      dsimp only
      rw [htake]
      rfl
    · have hnodup := hq.chain.nodup
      rw [List.map_cons, List.nodup_cons] at hnodup
      rcases eq_or_ne c a with rfl | hne
      · change (h' c).isSome ↔ c ∈ l.map Prod.fst
        rw [hfreed]
        exact iff_of_false Bool.false_ne_true hnodup.1
      · change (h' c).isSome ↔ c ∈ l.map Prod.fst
        rw [hframe c hne, hlive c, List.map_cons, List.mem_cons]
        exact ⟨fun hor => hor.resolve_left hne, Or.inr⟩

omit [DecidableEq Addr] in
theorem isEmpty_holds (hs : Holds s xs) : isEmpty s.q = xs.isEmpty := by
  obtain ⟨l, hq, rfl, -⟩ := hs
  rw [isEmpty, hq.chain.head_eq]
  cases l <;> rfl

omit [DecidableEq Addr] in
theorem front_holds (hs : Holds s xs) : front s.heap s.q = some (xs.headD (-1)) := by
  have hempty := isEmpty_holds hs
  obtain ⟨l, hq, rfl, -⟩ := hs
  rw [front, hempty]
  cases l with
  | nil => rfl
  | cons p l =>
    obtain ⟨hfront, n, ha, -⟩ := hq.chain.uncons
    rw [if_neg (by simp), hfront, Option.bind_some, ha]
    rfl

omit [DecidableEq Addr] in
theorem rear_holds (hs : Holds s xs) : rear s.heap s.q = some (xs.getLastD (-1)) := by
  have hempty := isEmpty_holds hs
  obtain ⟨l, hq, rfl, -⟩ := hs
  rw [rear, hempty, hq.rear]
  rcases l.eq_nil_or_concat' with rfl | ⟨l, ⟨b, w⟩, rfl⟩
  · rfl
  · have hvalue := hq.chain.values (b, w) (by simp)
    rw [if_neg (by simp), List.map_append, List.map_cons, List.map_nil,
      List.getLast?_append_of_ne_nil _ (List.cons_ne_nil b [])]
    refine hvalue.trans ?_
    simp [List.getLastD_eq_getLast?]

/-- **First in, first out.** For every sequence of calls from `createQueue` on, if `malloc` returns addresses that are not in
use: no null pointer and no freed node is dereferenced, every answer is that of a first-in first-out list (-1 where it is
empty), and at the end the nodes allocated are exactly those of the queue: none is lost, and none is reached that was freed. -/
theorem refines_fifo (calls : List (Call Addr)) (hunused : Machine.Meets (Machine.next step) Unused St.init calls) :
    Machine.Agrees step fifo Holds St.init [] calls := by
  refine (Machine.agrees_iff (C := Unused) (R := Holds) ?_ ?_ (fun _ _ h => h) ?_ calls).2 hunused
  · intro s xs call hs hcall
    cases call with
    | enqueue data newNode => exact enqueue_holds hs data hcall
    | dequeue => exact dequeue_holds hs
    | isEmpty => exact ⟨s, by rw [step, isEmpty_holds hs]; rfl, hs⟩
    | front => exact ⟨s, by rw [step, front_holds hs]; rfl, hs⟩
    | rear => exact ⟨s, by rw [step, rear_holds hs]; rfl, hs⟩
  · intro s xs call _ hcall s' heq
    cases call with
    | enqueue data newNode =>
      have hused : ¬s.heap newNode = none := hcall
      rw [step, if_neg hused] at heq
      cases heq
    | _ => exact hcall trivial
  · exact ⟨[], isQueue_create _, rfl, fun a => iff_of_false Bool.false_ne_true List.not_mem_nil⟩

/-- as in `main`, with the address of the first node used again -/
def reuse : List (Call ℕ) := [.enqueue 10 1, .enqueue 20 2, .dequeue, .enqueue 30 1, .rear, .dequeue, .dequeue, .dequeue]

theorem reuse_unused : Machine.Meets (Machine.next step) Unused St.init reuse := by
  refine .cons rfl rfl (.cons rfl rfl (.cons rfl trivial (.cons rfl rfl (.cons rfl trivial ?_))))
  exact .cons rfl trivial (.cons rfl trivial (.cons rfl trivial trivial))

theorem refines_fifo_reuse : (Machine.runTotal fifo [] reuse).2 =
      [.done, .done, .int 10, .done, .int 30, .int 20, .int 30, .int (-1)] ∧
    Machine.Agrees step fifo Holds St.init [] reuse := ⟨rfl, refines_fifo reuse reuse_unused⟩

end InterviewPrep.LinkedQueue
