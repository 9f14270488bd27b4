/-
Deleting a node of which only its own address is known: arista/deleteNode.cpp (`SingleLinkedList`).

`deleteNode` copies the next node into the node, and deletes the next node instead. The last node has none: there it dereferences
a null pointer. A node that is dereferenced or deleted without being allocated is `none`. The loops are given as many rounds as
there are nodes; one that has not ended by then is `none`, too.

- `runs_iff`: a sequence of calls goes right if and only if every address that `new` returns is unused, and `deleteNode` is only
  called with null or with a node that is allocated and not the last; then `deleteNode` takes the value of the node it is given
  out of the list, and the address of the node behind it, the nodes allocated are those of the list, and the destructor deletes
  them.
-/
import InterviewPrep.Core.Machine
import InterviewPrep.Core.NodeHeap
import InterviewPrep.LinkedQueue

namespace InterviewPrep.LinkedList.DeleteNode

variable {Addr : Type} [DecidableEq Addr]

/-! ## Model -/

abbrev Heap (Addr : Type) := NodeHeap ℤ Addr

/-- `while (curr->next)` -/
def lastFrom (h : Heap Addr) : ℕ → Addr → Option Addr
  | 0, _ => none
  | rounds + 1, curr => (h curr).bind fun node =>
    match node.next with
    | none => some curr
    | some next => lastFrom h rounds next

def insert (h : Heap Addr) (rounds : ℕ) (head : Option Addr) (val : ℤ) (n : Addr) : Option (Heap Addr × Option Addr) :=
  let h := Function.update h n (some ⟨val, none⟩)
  match head with
  | none => some (h, some n)
  | some hd => (lastFrom h rounds hd).bind fun curr =>
      (h curr).map fun node => (Function.update h curr (some { node with next := some n }), some hd)

def printList (h : Heap Addr) : ℕ → Option Addr → Option (List ℤ)
  | _, none => some []
  | 0, some _ => none
  | rounds + 1, some curr => (h curr).bind fun node => (printList h rounds node.next).map fun vs => node.value :: vs

def deleteNode (h : Heap Addr) : Option Addr → Option (Heap Addr)
  | none => some h
  | some node => (h node).bind fun nodeBox => nodeBox.next.bind fun next => (h next).map fun nextBox =>
      Function.update (Function.update h node (some nextBox)) next none

/-- `~SingleLinkedList` -/
def destroy : ℕ → Heap Addr → Option Addr → Option (Heap Addr)
  | _, h, none => some h
  | 0, _, some _ => none
  | rounds + 1, h, some current => (h current).bind fun node => destroy rounds (Function.update h current none) node.next

/-! ## Calls -/

structure St (Addr : Type) where
  heap : Heap Addr
  head : Option Addr
  /-- nodes allocated -/
  nodes : ℕ

def St.init : St Addr := ⟨fun _ => none, none, 0⟩

inductive Call (Addr : Type) where
  | insert (val : ℤ) (n : Addr)
  | deleteNode (node : Option Addr)
  | getHead
  | printList

inductive Answer (Addr : Type) where
  | done
  | node (a : Option Addr)
  | values (vs : List ℤ)
  deriving DecidableEq

/-- `new` does not return an address in use -/
def step (s : St Addr) : Call Addr → Option (St Addr × Answer Addr)
  | .insert val n =>
    if s.heap n = none then (insert s.heap s.nodes s.head val n).map fun r => (⟨r.1, r.2, s.nodes + 1⟩, .done) else none
  | .deleteNode none => some (s, .done)
  | .deleteNode (some node) => (deleteNode s.heap (some node)).map fun h => (⟨h, s.head, s.nodes - 1⟩, .done)
  | .getHead => some (s, .node s.head)
  | .printList => (printList s.heap s.nodes s.head).map fun vs => (s, .values vs)

/-- the nodes in order, and their values -/
structure Contents (Addr : Type) where
  nodes : List Addr
  values : List ℤ

/-- the value goes, and the node behind it -/
def Contents.delete (t : Contents Addr) (node : Addr) : Contents Addr :=
  ⟨t.nodes.eraseIdx (t.nodes.idxOf node + 1), t.values.eraseIdx (t.nodes.idxOf node)⟩

def list (t : Contents Addr) : Call Addr → Contents Addr × Answer Addr
  | .insert val n => (⟨t.nodes ++ [n], t.values ++ [val]⟩, .done)
  | .deleteNode none => (t, .done)
  | .deleteNode (some node) => (t.delete node, .done)
  | .getHead => (t, .node t.nodes.head?)
  | .printList => (t, .values t.values)

def Possible (s : St Addr) : Call Addr → Prop
  | .insert _ n => s.heap n = none
  | .deleteNode (some node) => ∃ nodeBox, s.heap node = some nodeBox ∧ nodeBox.next ≠ none
  | _ => True

/-! ## One list -/

variable {h : Heap Addr} {hd : Option Addr} {l : List (Addr × ℤ)} {a b : Addr} {v : ℤ}

omit [DecidableEq Addr] in
theorem lastFrom_spec (hl : NodeChain h hd (l ++ [(b, v)])) (hhd : hd = some a) : lastFrom h (l.length + 1) a = some b := by
  induction l generalizing hd a with
  | nil =>
    obtain ⟨rfl, n, hb, hrest⟩ := hl.uncons
    obtain rfl := Option.some.inj hhd
    obtain rfl : n = none := hrest.head_eq
    rw [List.length_nil, lastFrom, hb, Option.bind_some]
  | cons p l ih =>
    obtain ⟨c, u⟩ := p
    obtain ⟨rfl, n, hc, hrest⟩ := hl.uncons
    obtain rfl := Option.some.inj hhd
    obtain ⟨d, hd⟩ : ∃ d, n = some d := by
      rw [hrest.head_eq]
      cases l <;> exact ⟨_, rfl⟩
    rw [List.length_cons, lastFrom, hc, Option.bind_some, hd]
    exact ih hrest hd

omit [DecidableEq Addr] in
theorem printList_spec (hl : NodeChain h hd l) : printList h l.length hd = some (l.map Prod.snd) := by
  induction l generalizing hd with
  | nil =>
    obtain rfl : hd = none := hl.head_eq
    rfl
  | cons p l ih =>
    obtain ⟨c, u⟩ := p
    obtain ⟨rfl, n, hc, hrest⟩ := hl.uncons
    rw [List.length_cons, printList, hc, Option.bind_some, ih hrest, Option.map_some, List.map_cons]

theorem destroy_spec (hl : NodeChain h hd l) :
    destroy l.length h hd = some fun a => if a ∈ l.map Prod.fst then none else h a := by
  induction l generalizing hd h with
  | nil =>
    obtain rfl : hd = none := hl.head_eq
    rfl
  | cons p l ih =>
    obtain ⟨c, u⟩ := p
    have hnodup := hl.nodup
    rw [List.map_cons, List.nodup_cons] at hnodup
    obtain ⟨rfl, n, hc, hrest⟩ := hl.uncons
    have hrest' : NodeChain (Function.update h c none) n l := hrest.congr fun d hd => Function.update_of_ne (by
      rintro rfl
      exact hnodup.1 hd) _ _
    rw [List.length_cons, destroy, hc, Option.bind_some, ih hrest']
    congr 1
    funext d
    have hmem : d ∈ ((c, u) :: l).map Prod.fst ↔ d = c ∨ d ∈ l.map Prod.fst := List.mem_cons
    rcases eq_or_ne d c with rfl | hne
    · rw [if_pos (hmem.2 (Or.inl rfl)), Function.update_self, ite_self]
    · rw [Function.update_of_ne hne]
      exact if_congr (hmem.trans (or_iff_right hne)).symm rfl rfl

/-- a new node comes to the end, as in the linked queue -/
theorem insert_spec (hl : NodeChain h hd l) (hnew : a ∉ l.map Prod.fst) (val : ℤ) :
    ∃ h' hd', insert h l.length hd val a = some (h', hd') ∧ NodeChain h' hd' (l ++ [(a, val)]) ∧
      ∀ c, c ≠ a → c ∉ l.map Prod.fst → h' c = h c := by
  have hchain : NodeChain (Function.update h a (some ⟨val, none⟩)) hd l := hl.congr fun c hc =>
    Function.update_of_ne (fun heq => hnew (by rwa [heq] at hc)) _ _
  obtain ⟨h', q', hlink, hq', hframe⟩ := LinkedQueue.linkIn_spec
    (q := ⟨hd, (l.map Prod.fst).getLast?⟩) ⟨hchain, rfl⟩ (Function.update_self ..) hnew
  refine ⟨h', q'.front, ?_, hq'.chain, fun c hca hcl => (hframe c hcl).trans (Function.update_of_ne hca ..)⟩
  rcases l.eq_nil_or_concat' with rfl | ⟨l, ⟨b, w⟩, rfl⟩
  · obtain rfl : hd = none := hl.head_eq
    obtain ⟨rfl, rfl⟩ := Prod.mk.inj (Option.some.inj hlink)
    rfl
  · obtain ⟨c, rfl⟩ : ∃ c, hd = some c := by
      rw [hl.head_eq]
      cases l <;> exact ⟨_, rfl⟩
    have hrear : ((l ++ [(b, w)]).map Prod.fst).getLast? = some b := by simp
    rw [hrear, LinkedQueue.linkIn] at hlink
    obtain ⟨node, hnode, heq⟩ := Option.map_eq_some_iff.1 hlink
    obtain ⟨rfl, rfl⟩ := Prod.mk.inj heq
    have hlast := lastFrom_spec hchain rfl
    rw [List.length_append, List.length_singleton, insert, hlast, Option.bind_some, hnode, Option.map_some]

/-- what `deleteNode` makes of a list -/
def remove (a : Addr) : List (Addr × ℤ) → List (Addr × ℤ)
  | p :: q :: l => if p.1 = a then (a, q.2) :: l else p :: remove a (q :: l)
  | l => l

theorem remove_nodes (a : Addr) (l : List (Addr × ℤ)) :
    (remove a l).map Prod.fst = (l.map Prod.fst).eraseIdx ((l.map Prod.fst).idxOf a + 1) := by
  induction l with
  | nil => rfl
  | cons p l ih =>
    cases l with
    | nil => simp [remove]
    | cons q l =>
      rw [remove]
      split_ifs with hp
      · simp [hp]
      · rw [List.map_cons, ih, List.map_cons (l := q :: l), List.idxOf_cons_ne _ hp, List.eraseIdx_cons_succ]

theorem remove_values {a : Addr} {l : List (Addr × ℤ)} (ha : (l.map Prod.fst).idxOf a + 1 < l.length) :
    (remove a l).map Prod.snd = (l.map Prod.snd).eraseIdx ((l.map Prod.fst).idxOf a) := by
  induction l with
  | nil => cases ha
  | cons p l ih =>
    cases l with
    | nil => simp at ha
    | cons q l =>
      rw [remove]
      split_ifs with hp
      · simp [hp]
      · rw [List.map_cons, List.idxOf_cons_ne _ hp, List.length_cons] at ha
        rw [List.map_cons, ih (by omega), List.map_cons (l := q :: l), List.map_cons (l := q :: l), List.idxOf_cons_ne _ hp,
          List.eraseIdx_cons_succ]

/-- the node behind `a` is in the list, and what `deleteNode` leaves is a list -/
theorem delete_chain (hl : NodeChain h hd l) (ha : h a = some ⟨v, some b⟩) (hmem : a ∈ l.map Prod.fst) :
    ∃ next, h b = some next ∧ b ∈ (l.map Prod.fst).tail ∧
      NodeChain (Function.update (Function.update h a (some next)) b none) hd (remove a l) ∧
      (l.map Prod.fst).idxOf a + 1 < l.length ∧ ∀ c, c ∈ (remove a l).map Prod.fst ↔ c ∈ l.map Prod.fst ∧ c ≠ b := by
  induction l generalizing hd with
  | nil => cases hmem
  | cons p l ih =>
    obtain ⟨c, u⟩ := p
    have hnodup := hl.nodup
    obtain ⟨rfl, n, hc, hrest⟩ := hl.uncons
    rcases eq_or_ne c a with rfl | hne
    · -- the node itself: the next one is at `b`
      obtain ⟨rfl, rfl⟩ := HeapNode.mk.inj (Option.some.inj (hc.symm.trans ha))
      cases l with
      | nil => cases hrest.head_eq
      | cons q l =>
        obtain ⟨d, w⟩ := q
        obtain ⟨hdb, m, hd, hlast⟩ := hrest.uncons
        obtain rfl := Option.some.inj hdb
        rw [List.map_cons, List.map_cons, List.nodup_cons, List.nodup_cons, List.mem_cons, not_or] at hnodup
        obtain ⟨⟨hcb, hcl⟩, hbl, -⟩ := hnodup
        refine ⟨⟨w, m⟩, hd, List.mem_cons_self, ?_, ?_, fun e => ?_⟩
        · rw [remove, if_pos rfl]
          refine NodeChain.cons (hlast.congr fun e he => ?_) ?_
          · rw [Function.update_of_ne, Function.update_of_ne]
            · rintro rfl
              exact hcl he
            · rintro rfl
              exact hbl he
          · rw [Function.update_of_ne hcb, Function.update_self]
        · simp
        · rw [remove, if_pos rfl, List.map_cons, List.map_cons, List.map_cons, List.mem_cons, List.mem_cons, List.mem_cons]
          constructor
          · rintro (rfl | he)
            · exact ⟨Or.inl rfl, hcb⟩
            · refine ⟨Or.inr (Or.inr he), ?_⟩
              rintro rfl
              exact hbl he
          · rintro ⟨rfl | rfl | he, heb⟩
            · exact Or.inl rfl
            · exact absurd rfl heb
            · exact Or.inr he
    · have hmem' : a ∈ l.map Prod.fst := (List.mem_cons.1 hmem).resolve_left hne.symm
      obtain ⟨next, hb, htail, hchain, hidx, hnodes⟩ := ih hrest hmem'
      have hbl : b ∈ l.map Prod.fst := List.mem_of_mem_tail htail
      rw [List.map_cons, List.nodup_cons] at hnodup
      cases l with
      | nil => cases hmem'
      | cons q l =>
        have hcb : c ≠ b := by
          rintro rfl
          exact hnodup.1 hbl
        refine ⟨next, hb, hbl, ?_, ?_, fun e => ?_⟩
        · rw [remove, if_neg hne]
          exact hchain.cons (by rw [Function.update_of_ne hcb, Function.update_of_ne hne, hc])
        · rw [List.map_cons, List.idxOf_cons_ne _ hne, List.length_cons]
          omega
        · have hnew : e ∈ (remove a ((c, u) :: q :: l)).map Prod.fst ↔ e = c ∨ e ∈ (remove a (q :: l)).map Prod.fst := by
            rw [remove, if_neg hne]
            exact List.mem_cons
          have hold : e ∈ ((c, u) :: q :: l).map Prod.fst ↔ e = c ∨ e ∈ (q :: l).map Prod.fst := List.mem_cons
          rw [hnew, hold, hnodes e, or_and_right]
          refine or_congr_left ⟨?_, And.left⟩
          rintro rfl
          exact ⟨rfl, hcb⟩

/-! ## All calls -/

/-- `l` are the nodes of the list, and all there are -/
structure Holding (s : St Addr) (t : Contents Addr) (l : List (Addr × ℤ)) : Prop where
  chain : NodeChain s.heap s.head l
  nodes : l.map Prod.fst = t.nodes
  values : l.map Prod.snd = t.values
  count : s.nodes = l.length
  live : ∀ a, (s.heap a).isSome ↔ a ∈ l.map Prod.fst

def Holds (s : St Addr) (t : Contents Addr) : Prop := ∃ l, Holding s t l

variable {s : St Addr} {t : Contents Addr}

omit [DecidableEq Addr] in
theorem init_holds : Holds (St.init : St Addr) ⟨[], []⟩ :=
  ⟨[], .nil, rfl, rfl, rfl, fun _ => iff_of_false Bool.false_ne_true List.not_mem_nil⟩

theorem insert_holds (hs : Holds s t) (val : ℤ) {n : Addr} (hn : s.heap n = none) :
    ∃ s', step s (.insert val n) = some (s', .done) ∧ Holds s' ⟨t.nodes ++ [n], t.values ++ [val]⟩ := by
  obtain ⟨l, hs⟩ := hs
  have hnew : n ∉ l.map Prod.fst := fun hmem => by
    have hsome := (hs.live n).2 hmem
    rw [hn] at hsome
    cases hsome
  obtain ⟨h', hd', hinsert, hchain, hframe⟩ := insert_spec hs.chain hnew val
  have hmem : ∀ c, c ∈ (l ++ [(n, val)]).map Prod.fst ↔ c ∈ l.map Prod.fst ∨ c = n := fun c => by
    rw [List.map_append, List.mem_append, List.map_singleton, List.mem_singleton]
  refine ⟨⟨h', hd', s.nodes + 1⟩, ?_, l ++ [(n, val)], hchain, ?_, ?_, ?_, fun c => ?_⟩
  · rw [step, if_pos hn, hs.count, hinsert, Option.map_some]
  · rw [← hs.nodes, List.map_append, List.map_singleton]
  · rw [← hs.values, List.map_append, List.map_singleton]
  · rw [List.length_append, List.length_singleton, ← hs.count]
  · change (h' c).isSome ↔ _
    by_cases hc : c ∈ (l ++ [(n, val)]).map Prod.fst
    · exact iff_of_true (hchain.allocated hc) hc
    · refine iff_of_false (fun hsome => ?_) hc
      rw [hmem, not_or] at hc
      rw [hframe c hc.2 hc.1] at hsome
      exact hc.1 ((hs.live c).1 hsome)

theorem deleteNode_holds (hs : Holds s t) {a : Addr} (ha : ∃ nodeBox, s.heap a = some nodeBox ∧ nodeBox.next ≠ none) :
    ∃ s', step s (.deleteNode (some a)) = some (s', .done) ∧ Holds s' (t.delete a) := by
  obtain ⟨l, hs⟩ := hs
  obtain ⟨⟨v, n⟩, hnode, hnext⟩ := ha
  obtain ⟨b, rfl⟩ := Option.ne_none_iff_exists'.1 hnext
  have hmem : a ∈ l.map Prod.fst := (hs.live a).1 (by rw [hnode]; rfl)
  obtain ⟨next, hb, -, hchain, hidx, hnodes⟩ := delete_chain hs.chain hnode hmem
  refine ⟨⟨_, s.head, s.nodes - 1⟩, ?_, remove a l, hchain, ?_, ?_, ?_, fun c => ?_⟩
  · rw [step, deleteNode, hnode, Option.bind_some]
    dsimp only
    rw [Option.bind_some, hb]
    rfl
  · rw [remove_nodes, hs.nodes]
    rfl
  · rw [remove_values hidx, hs.values, hs.nodes]
    rfl
  · have hlength : (remove a l).length = l.length - 1 := by
      rw [← List.length_map (f := Prod.snd), remove_values hidx, List.length_eraseIdx_of_lt, List.length_map]
      rw [List.length_map]
      omega
    change s.nodes - 1 = _
    rw [hs.count, hlength]
  · rw [hnodes c, ← hs.live c]
    change (Function.update (Function.update s.heap a (some next)) b none c).isSome ↔ _
    rcases eq_or_ne c b with rfl | hne
    · rw [Function.update_self]
      exact iff_of_false Bool.false_ne_true fun hand => hand.2 rfl
    · rw [Function.update_of_ne hne, and_iff_left hne]
      rcases eq_or_ne c a with rfl | hca
      · rw [Function.update_self, hnode]
        exact iff_of_true rfl rfl
      · rw [Function.update_of_ne hca]

/-- the destructor deletes every node, and none that is not allocated -/
theorem destroy_holds (hs : Holds s t) : destroy s.nodes s.heap s.head = some fun _ => none := by
  obtain ⟨l, hs⟩ := hs
  rw [hs.count, destroy_spec hs.chain]
  congr 1
  funext a
  split_ifs with ha
  · rfl
  · exact Option.not_isSome_iff_eq_none.1 (mt (hs.live a).1 ha)

/-- the contents are as they should be, and the destructor would leave nothing allocated -/
def Sound (s : St Addr) (t : Contents Addr) : Prop := Holds s t ∧ destroy s.nodes s.heap s.head = some fun _ => none

/-- **What goes right.** A sequence of calls from the empty list on dereferences no null pointer and no deleted node, and
answers as below, if and only if `new` returns addresses that are not in use and `deleteNode` is called with null or a node that
is allocated and not the last. `deleteNode` takes the value of its node out of the list; the address that is deleted is that of
the node behind it. The nodes allocated are those of the list, and the destructor deletes each of them once. -/
theorem runs_iff (calls : List (Call Addr)) :
    Machine.Agrees step list Sound St.init ⟨[], []⟩ calls ↔ Machine.Meets (Machine.next step) Possible St.init calls := by
  refine Machine.agrees_iff (C := Possible) (R := Holds) ?_ ?_ (fun _ _ h => ⟨h, destroy_holds h⟩) init_holds calls
  · intro s t call hs hcall
    cases call with
    | insert val n => exact insert_holds hs val hcall
    | deleteNode node =>
      cases node with
      | none => exact ⟨s, rfl, hs⟩
      | some a => exact deleteNode_holds hs hcall
    | getHead =>
      obtain ⟨l, hs⟩ := hs
      exact ⟨s, by rw [step, hs.chain.head_eq, hs.nodes]; rfl, l, hs⟩
    | printList =>
      obtain ⟨l, hs⟩ := hs
      exact ⟨s, by rw [step, hs.count, printList_spec hs.chain, Option.map_some, hs.values]; rfl, l, hs⟩
  · intro s t call _ hnot s' heq
    cases call with
    | insert val n => exact hnot (Option.ite_none_right_eq_some.1 heq).1
    | deleteNode node =>
      cases node with
      | none => exact hnot trivial
      | some a =>
        obtain ⟨h, hdelete, -⟩ := Option.map_eq_some_iff.1 heq
        obtain ⟨nodeBox, hnode, hrest⟩ := Option.bind_eq_some_iff.1 hdelete
        obtain ⟨next, hnext, -⟩ := Option.bind_eq_some_iff.1 hrest
        exact hnot ⟨nodeBox, hnode, by rw [hnext]; exact Option.some_ne_none next⟩
    | getHead => exact hnot trivial
    | printList => exact hnot trivial

/-- as in `main`: the node that held 2 holds 3, and the one that held 3 is gone -/
example : (Machine.run step (St.init : St ℕ)
    [.insert 1 10, .insert 2 20, .insert 3 30, .deleteNode (some 20), .printList, .insert 4 30, .printList]).map Prod.snd =
      some [.done, .done, .done, .done, .values [1, 3], .done, .values [1, 3, 4]] := by decide

end InterviewPrep.LinkedList.DeleteNode
