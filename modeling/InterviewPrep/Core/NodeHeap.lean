/-
Lists of nodes with a value and a link, in a heap.

`NodeChain h hd l`: from `hd`, the links of `h` go through the nodes `l`, which have the values that stand beside them, and end at
null. Lemmas for what programs do with such a list: a node in front (`cons`, `uncons`), a node at the end (`concat`), nodes
elsewhere made, changed or freed (`congr`).
-/
import InterviewPrep.Core.HeapChain

namespace InterviewPrep

structure HeapNode (V Addr : Type) where
  value : V
  next : Option Addr
  deriving DecidableEq

/-- `none` where nothing is allocated -/
abbrev NodeHeap (V Addr : Type) := Addr → Option (HeapNode V Addr)

variable {V Addr : Type}

namespace NodeHeap

def link (h : NodeHeap V Addr) (a : Addr) : Option (Option Addr) := (h a).map HeapNode.next

end NodeHeap

structure NodeChain (h : NodeHeap V Addr) (hd : Option Addr) (l : List (Addr × V)) : Prop where
  chain : HeapChain h.link hd (l.map Prod.fst)
  values : ∀ p ∈ l, (h p.1).map HeapNode.value = some p.2

namespace NodeChain

variable {h h' : NodeHeap V Addr} {hd n : Option Addr} {l : List (Addr × V)} {a b : Addr} {v w : V}

theorem nil : NodeChain h none [] := ⟨rfl, fun _ hp => absurd hp List.not_mem_nil⟩

theorem cons (hl : NodeChain h n l) (ha : h a = some ⟨v, n⟩) : NodeChain h (some a) ((a, v) :: l) := by
  refine ⟨⟨rfl, n, ?_, hl.chain⟩, fun p hp => ?_⟩
  · rw [NodeHeap.link, ha, Option.map_some]
  · rcases List.mem_cons.1 hp with rfl | hrest
    · rw [ha, Option.map_some]
    · exact hl.values p hrest

theorem uncons (hl : NodeChain h hd ((a, v) :: l)) : hd = some a ∧ ∃ n, h a = some ⟨v, n⟩ ∧ NodeChain h n l := by
  obtain ⟨hhd, n, hlink, hrest⟩ := hl.chain
  refine ⟨hhd, n, ?_, hrest, fun p hp => hl.values p (List.mem_cons_of_mem _ hp)⟩
  obtain ⟨node, hnode, hnext⟩ := Option.map_eq_some_iff.1 hlink
  have hvalue := hl.values (a, v) List.mem_cons_self
  rw [hnode, Option.map_some] at hvalue
  have hv : node.value = v := Option.some.inj hvalue
  rw [hnode, ← hnext, ← hv]

theorem head_eq (hl : NodeChain h hd l) : hd = (l.map Prod.fst).head? := hl.chain.head_eq

theorem nodup (hl : NodeChain h hd l) : (l.map Prod.fst).Nodup := hl.chain.nodup

theorem allocated (hl : NodeChain h hd l) (ha : a ∈ l.map Prod.fst) : (h a).isSome := by
  have hsome := hl.chain.allocated ha
  rwa [NodeHeap.link, Option.isSome_map] at hsome

/-- only the nodes of the list matter -/
theorem congr (hl : NodeChain h hd l) (hsame : ∀ a ∈ l.map Prod.fst, h' a = h a) : NodeChain h' hd l := by
  refine ⟨hl.chain.congr fun a ha => ?_, fun p hp => ?_⟩
  · rw [NodeHeap.link, NodeHeap.link, hsame a ha]
  · rw [hsame p.1 (List.mem_map_of_mem hp), hl.values p hp]

/-- a null-terminated node behind the last one -/
theorem concat (hl : NodeChain h hd (l ++ [(b, w)])) (hb : h' b = some ⟨w, some a⟩) (ha : h' a = some ⟨v, none⟩)
    (hsame : ∀ c ∈ l.map Prod.fst, h' c = h c) : NodeChain h' hd (l ++ [(b, w), (a, v)]) := by
  induction l generalizing hd with
  | nil =>
    obtain ⟨rfl, -⟩ := hl.uncons
    exact (nil.cons ha).cons hb
  | cons p l ih =>
    obtain ⟨c, u⟩ := p
    obtain ⟨rfl, n, hc, hrest⟩ := hl.uncons
    rw [List.map_cons, List.forall_mem_cons] at hsame
    exact (ih hrest hsame.2).cons (hsame.1.trans hc)

end NodeChain

end InterviewPrep
