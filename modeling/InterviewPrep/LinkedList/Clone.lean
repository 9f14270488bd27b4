/-
Copies of a list with random pointers: microsoft/cloneLinkedList.cpp.

A heap has nodes at the addresses below `fresh`, where the next one is allocated. The loops are made for at most `fuel` rounds; a
loop that has not ended by then, and a pointer that is dereferenced without a node there, are `none`.

`cloneLinkedList2` weaves the copies into the list, links their random pointers and takes the lists apart; `cloneLinkedList`
keeps the copies in a map. Between their passes all that changes are the links of the originals and the copies: `Cells` gives
them as functions of the original, and each assignment of a pass changes one of them at one place.
- `clones_isomorphic`: for every list whose random pointers stay in it, `cloneLinkedList2` returns a list of new nodes that
  is isomorphic to it and leaves everything that was there as it was, and so does `cloneLinkedList`, whose list is isomorphic
  to that one.
-/
import InterviewPrep.Core.HeapChain

namespace InterviewPrep.LinkedList.Clone

/-! ## Model -/

structure Node where
  data : ℤ
  next : Option ℕ
  random : Option ℕ
deriving DecidableEq

structure Heap where
  nodes : ℕ → Option Node
  fresh : ℕ
  bounded : ∀ a, fresh ≤ a → nodes a = none

namespace Heap

/-- `*p` -/
def get (h : Heap) (p : Option ℕ) : Option Node := p.bind h.nodes

theorem lt_fresh {h : Heap} {a : ℕ} {n : Node} (ha : h.nodes a = some n) : a < h.fresh := by
  by_contra hge
  rw [h.bounded a (not_lt.1 hge)] at ha
  cases ha

/-- a node that is there already has another content -/
def write (h : Heap) (a : ℕ) {n : Node} (ha : h.nodes a = some n) (n' : Node) : Heap where
  nodes := Function.update h.nodes a (some n')
  fresh := h.fresh
  bounded b hb := by
    rw [Function.update_of_ne (by have := lt_fresh ha; omega), h.bounded b hb]

/-- `p->next = v` -/
def setNext (h : Heap) (p v : Option ℕ) : Option Heap :=
  match p with
  | none => none
  | some a =>
    match ha : h.nodes a with
    | none => none
    | some n => some (h.write a ha { n with next := v })

/-- `p->random = v` -/
def setRandom (h : Heap) (p v : Option ℕ) : Option Heap :=
  match p with
  | none => none
  | some a =>
    match ha : h.nodes a with
    | none => none
    | some n => some (h.write a ha { n with random := v })

/-- `new Node(x)`, at the address `fresh` -/
def new (h : Heap) (x : ℤ) : Heap where
  nodes := Function.update h.nodes h.fresh (some ⟨x, none, none⟩)
  fresh := h.fresh + 1
  bounded b hb := by
    rw [Function.update_of_ne (by omega), h.bounded b (by omega)]

/-- the `next` fields -/
def link (h : Heap) (a : ℕ) : Option (Option ℕ) := (h.nodes a).map Node.next

end Heap

/-- the first loop of `cloneLinkedList2` -/
def weave : ℕ → Heap → Option ℕ → Option Heap
  | 0, _, _ => none
  | _ + 1, h, none => some h
  | fuel + 1, h, some curr => do
    let n ← h.nodes curr
    let temp := h.fresh
    let h := h.new n.data
    let n ← h.nodes curr
    let h ← h.setNext (some temp) n.next
    let h ← h.setNext (some curr) (some temp)
    let t ← h.nodes temp
    weave fuel h t.next

/-- `if (curr->random != NULL) curr->next->random = curr->random->next` -/
def copyRandom (h : Heap) (curr : ℕ) : Option Heap := do
  let n ← h.nodes curr
  if n.random ≠ none then
    let target ← h.get n.random
    h.setRandom n.next target.next
  else some h

/-- the second loop -/
def linkRandom : ℕ → Heap → Option ℕ → Option Heap
  | 0, _, _ => none
  | _ + 1, h, none => some h
  | fuel + 1, h, some curr => do
    let h ← copyRandom h curr
    let n ← h.nodes curr
    let t ← h.get n.next
    linkRandom fuel h t.next

/-- `p->next ? p->next->next : p->next` -/
def overNext (h : Heap) (p : Option ℕ) : Option (Option ℕ) := do
  let n ← h.get p
  if n.next ≠ none then
    let t ← h.get n.next
    some t.next
  else some n.next

/-- the third loop -/
def unweave : ℕ → Heap → Option ℕ → Option ℕ → Option Heap
  | 0, _, _, _ => none
  | fuel + 1, h, some original, some copy => do
    let h ← h.setNext (some original) (← overNext h (some original))
    let h ← h.setNext (some copy) (← overNext h (some copy))
    let n ← h.nodes original
    let t ← h.nodes copy
    unweave fuel h n.next t.next
  | _ + 1, h, _, _ => some h

/-- the heap afterwards and the list that is returned -/
def cloneLinkedList2 (fuel : ℕ) (h : Heap) (head : Option ℕ) : Option (Heap × Option ℕ) :=
  if head = none then some (h, none)
  else do
    let h ← weave fuel h head
    let h ← linkRandom fuel h head
    let n ← h.get head
    let temp := n.next
    let h ← unweave fuel h head n.next
    some (h, temp)

/-- `unordered_map<Node*, Node*>`: `mp[p]` is null where nothing has been stored -/
abbrev Map := Option ℕ → Option ℕ

/-- the first loop of `cloneLinkedList` -/
def copyNodes : ℕ → Heap → Map → Option ℕ → Option (Heap × Map)
  | 0, _, _, _ => none
  | _ + 1, h, mp, none => some (h, mp)
  | fuel + 1, h, mp, some curr => do
    let n ← h.nodes curr
    let mp := Function.update mp (some curr) (some h.fresh)
    let h := h.new n.data
    let n ← h.nodes curr
    copyNodes fuel h mp n.next

/-- the second loop -/
def linkCopies (mp : Map) : ℕ → Heap → Option ℕ → Option Heap
  | 0, _, _ => none
  | _ + 1, h, none => some h
  | fuel + 1, h, some curr => do
    let newNode := mp (some curr)
    let n ← h.nodes curr
    let h ← h.setNext newNode (mp n.next)
    let n ← h.nodes curr
    let h ← h.setRandom newNode (mp n.random)
    let n ← h.nodes curr
    linkCopies mp fuel h n.next

def cloneLinkedList (fuel : ℕ) (h : Heap) (head : Option ℕ) : Option (Heap × Option ℕ) := do
  let (h, mp) ← copyNodes fuel h (fun _ => none) head
  let h ← linkCopies mp fuel h head
  some (h, mp head)

/-! ## Assignments -/

variable {h h₀ h₁ h₂ h' : Heap} {a b : ℕ} {n : Node} {v w : Option ℕ}

/-- an assignment to a field of `*p` -/
def Heap.modify (h : Heap) (p : Option ℕ) (g : Node → Node) : Option Heap :=
  match p with
  | none => none
  | some a =>
    match ha : h.nodes a with
    | none => none
    | some n => some (h.write a ha (g n))

theorem Heap.modify_spec (g : Node → Node) (ha : h.nodes a = some n) :
    ∃ h', h.modify (some a) g = some h' ∧ h'.fresh = h.fresh ∧ h'.nodes = Function.update h.nodes a (some (g n)) := by
  unfold modify
  split
  · rename_i hnone
    cases hnone
  · rename_i a' hsome
    obtain rfl := Option.some.inj hsome
    split
    · rename_i hnone
      cases ha.symm.trans hnone
    · rename_i n' ha'
      obtain rfl := Option.some.inj (ha.symm.trans ha')
      exact ⟨_, rfl, rfl, rfl⟩

theorem Heap.setNext_spec (ha : h.nodes a = some n) :
    ∃ h', h.setNext (some a) v = some h' ∧ h'.fresh = h.fresh ∧
      h'.nodes = Function.update h.nodes a (some { n with next := v }) :=
  Heap.modify_spec (fun n => { n with next := v }) ha

theorem Heap.setRandom_spec (ha : h.nodes a = some n) :
    ∃ h', h.setRandom (some a) v = some h' ∧ h'.fresh = h.fresh ∧
      h'.nodes = Function.update h.nodes a (some { n with random := v }) :=
  Heap.modify_spec (fun n => { n with random := v }) ha

/-! ## Originals and copies -/

/-- the copies `f a` of the nodes `l` are at new addresses -/
structure Fresh (h₀ : Heap) (l : List ℕ) (f : ℕ → ℕ) : Prop where
  allocated : ∀ a ∈ l, ∃ n, h₀.nodes a = some n
  new : ∀ a ∈ l, h₀.nodes (f a) = none
  inj : ∀ a ∈ l, ∀ b ∈ l, f a = f b → a = b

/-- in `h`, the originals have the `next` fields `orig`, their copies the `next` fields `copy` and the `random` fields `rand`,
and everything else is as in `h₀` -/
structure Cells (h₀ h : Heap) (l : List ℕ) (f : ℕ → ℕ) (orig copy rand : ℕ → Option ℕ) : Prop where
  original : ∀ a ∈ l, ∀ n, h₀.nodes a = some n → h.nodes a = some ⟨n.data, orig a, n.random⟩
  copied : ∀ a ∈ l, ∀ n, h₀.nodes a = some n → h.nodes (f a) = some ⟨n.data, copy a, rand a⟩
  other : ∀ b ∉ l, (∀ a ∈ l, f a ≠ b) → h.nodes b = h₀.nodes b

variable {l p : List ℕ} {f : ℕ → ℕ} {orig copy rand orig' copy' rand' : ℕ → Option ℕ}

/-- a copy is not an original -/
theorem Fresh.apart (hf : Fresh h₀ l f) (ha : a ∈ l) (hb : b ∈ l) : f a ≠ b := by
  rintro rfl
  obtain ⟨n, hn⟩ := hf.allocated _ hb
  rw [hf.new a ha] at hn
  cases hn

namespace Cells

/-- before the first copy -/
theorem nil (h : Heap) (f : ℕ → ℕ) (orig copy rand : ℕ → Option ℕ) : Cells h h [] f orig copy rand :=
  ⟨fun _ ha => absurd ha List.not_mem_nil, fun _ ha => absurd ha List.not_mem_nil, fun _ _ _ => rfl⟩

theorem congr (hc : Cells h₀ h l f orig copy rand) (ho : ∀ a ∈ l, orig' a = orig a) (hcopy : ∀ a ∈ l, copy' a = copy a)
    (hr : ∀ a ∈ l, rand' a = rand a) : Cells h₀ h l f orig' copy' rand' := by
  refine ⟨fun a ha n hn => ?_, fun a ha n hn => ?_, hc.other⟩
  · rw [ho a ha, hc.original a ha n hn]
  · rw [hcopy a ha, hr a ha, hc.copied a ha n hn]

theorem write_original (hc : Cells h₀ h l f orig copy rand) (hf : Fresh h₀ l f) (ha : a ∈ l) (hn : h₀.nodes a = some n)
    (hnodes : h'.nodes = Function.update h.nodes a (some ⟨n.data, v, n.random⟩)) :
    Cells h₀ h' l f (Function.update orig a v) copy rand := by
  refine ⟨fun b hb m hm => ?_, fun b hb m hm => ?_, fun b hb hcopy => ?_⟩
  · rw [hnodes]
    rcases eq_or_ne b a with rfl | hne
    · obtain rfl := Option.some.inj (hn.symm.trans hm)
      rw [Function.update_self, Function.update_self]
    · rw [Function.update_of_ne hne, Function.update_of_ne hne, hc.original b hb m hm]
  · rw [hnodes, Function.update_of_ne (hf.apart hb ha), hc.copied b hb m hm]
  · rw [hnodes, Function.update_of_ne (fun heq : b = a => hb (heq ▸ ha)), hc.other b hb hcopy]

theorem write_copy (hc : Cells h₀ h l f orig copy rand) (hf : Fresh h₀ l f) (ha : a ∈ l) (hn : h₀.nodes a = some n)
    (hnodes : h'.nodes = Function.update h.nodes (f a) (some ⟨n.data, v, w⟩)) :
    Cells h₀ h' l f orig (Function.update copy a v) (Function.update rand a w) := by
  refine ⟨fun b hb m hm => ?_, fun b hb m hm => ?_, fun b hb hcopy => ?_⟩
  · rw [hnodes, Function.update_of_ne (hf.apart ha hb).symm, hc.original b hb m hm]
  · rw [hnodes]
    rcases eq_or_ne b a with rfl | hne
    · obtain rfl := Option.some.inj (hn.symm.trans hm)
      rw [Function.update_self, Function.update_self, Function.update_self]
    · have hother : f b ≠ f a := fun heq => hne (hf.inj b hb a ha heq)
      rw [Function.update_of_ne hother, Function.update_of_ne hne, Function.update_of_ne hne, hc.copied b hb m hm]
  · rw [hnodes, Function.update_of_ne (hcopy a ha).symm, hc.other b hb hcopy]

/-- `original->next = v` -/
theorem setOriginal (hc : Cells h₀ h l f orig copy rand) (hf : Fresh h₀ l f) (ha : a ∈ l) (v : Option ℕ) :
    ∃ h', h.setNext (some a) v = some h' ∧ h'.fresh = h.fresh ∧ Cells h₀ h' l f (Function.update orig a v) copy rand := by
  obtain ⟨n, hn⟩ := hf.allocated a ha
  obtain ⟨h', hset, hfresh, hnodes⟩ := Heap.setNext_spec (v := v) (hc.original a ha n hn)
  exact ⟨h', hset, hfresh, hc.write_original hf ha hn hnodes⟩

/-- `copy->next = v` -/
theorem setCopy (hc : Cells h₀ h l f orig copy rand) (hf : Fresh h₀ l f) (ha : a ∈ l) (v : Option ℕ) :
    ∃ h', h.setNext (some (f a)) v = some h' ∧ h'.fresh = h.fresh ∧ Cells h₀ h' l f orig (Function.update copy a v) rand := by
  obtain ⟨n, hn⟩ := hf.allocated a ha
  obtain ⟨h', hset, hfresh, hnodes⟩ := Heap.setNext_spec (v := v) (hc.copied a ha n hn)
  have hcells := hc.write_copy hf ha hn hnodes
  rw [Function.update_eq_self] at hcells
  exact ⟨h', hset, hfresh, hcells⟩

/-- `copy->random = v` -/
theorem setRandom (hc : Cells h₀ h l f orig copy rand) (hf : Fresh h₀ l f) (ha : a ∈ l) (v : Option ℕ) :
    ∃ h', h.setRandom (some (f a)) v = some h' ∧ h'.fresh = h.fresh ∧ Cells h₀ h' l f orig copy (Function.update rand a v) := by
  obtain ⟨n, hn⟩ := hf.allocated a ha
  obtain ⟨h', hset, hfresh, hnodes⟩ := Heap.setRandom_spec (v := v) (hc.copied a ha n hn)
  have hcells := hc.write_copy hf ha hn hnodes
  rw [Function.update_eq_self] at hcells
  exact ⟨h', hset, hfresh, hcells⟩

/-- a new node is the copy of the next original -/
theorem new (hc : Cells h₀ h p f orig copy rand) (hf : Fresh h₀ (p ++ [a]) f) (hap : a ∉ p) (hn : h₀.nodes a = some n)
    (hfa : f a = h.fresh) (ho : orig a = n.next) (hcopy : copy a = none) (hr : rand a = none) :
    Cells h₀ (h.new n.data) (p ++ [a]) f orig copy rand := by
  have hnodes : (h.new n.data).nodes = Function.update h.nodes (f a) (some ⟨n.data, none, none⟩) := hfa ▸ rfl
  have hlast : a ∈ p ++ [a] := List.mem_append_right p List.mem_cons_self
  have hbefore : ∀ b ∈ p, b ∈ p ++ [a] := fun b hb => List.mem_append_left [a] hb
  have hold : h.nodes a = some n := by
    rw [hc.other a hap fun b hb => hf.apart (hbefore b hb) hlast, hn]
  refine ⟨fun b hb m hm => ?_, fun b hb m hm => ?_, fun b hb hother => ?_⟩
  · rw [hnodes, Function.update_of_ne (hf.apart hlast hb).symm]
    rcases List.mem_append.1 hb with hb | hb
    · exact hc.original b hb m hm
    · obtain rfl := List.mem_singleton.1 hb
      obtain rfl := Option.some.inj (hn.symm.trans hm)
      rw [hold, ho]
  · rw [hnodes]
    rcases List.mem_append.1 hb with hb | hb
    · have hne : f b ≠ f a := fun heq => hap (hf.inj b (hbefore b hb) a hlast heq ▸ hb)
      rw [Function.update_of_ne hne, hc.copied b hb m hm]
    · obtain rfl := List.mem_singleton.1 hb
      obtain rfl := Option.some.inj (hn.symm.trans hm)
      rw [Function.update_self, hcopy, hr]
  · rw [hnodes, Function.update_of_ne (hother a hlast).symm]
    exact hc.other b (fun hb' => hb (hbefore b hb')) fun c hc' => hother c (hbefore c hc')

end Cells

/-! ## The passes -/

def nextOf (h : Heap) (a : ℕ) : Option ℕ := (h.nodes a).bind Node.next

def randomOf (h : Heap) (a : ℕ) : Option ℕ := (h.nodes a).bind Node.random

theorem nextOf_eq (hn : h.nodes a = some n) : nextOf h a = n.next := by rw [nextOf, hn, Option.bind_some]

theorem randomOf_eq (hn : h.nodes a = some n) : randomOf h a = n.random := by rw [randomOf, hn, Option.bind_some]

/-- the first node of a list, and where it goes on -/
theorem chain_cons {hd : Option ℕ} {s : List ℕ} (hchain : HeapChain h.link hd (a :: s)) :
    hd = some a ∧ ∃ n, h.nodes a = some n ∧ HeapChain h.link n.next s := by
  obtain ⟨hhd, next, hnext, hrest⟩ := hchain
  obtain ⟨n, hn, rfl⟩ := Option.map_eq_some_iff.1 hnext
  exact ⟨hhd, n, hn, hrest⟩

/-- the copies of the targets -/
def image (f : ℕ → ℕ) (target : ℕ → Option ℕ) (a : ℕ) : Option ℕ := (target a).map f

/-- the values of a function that a loop changes, when it has passed the nodes `p` -/
def passed (p : List ℕ) (new old : ℕ → Option ℕ) (a : ℕ) : Option ℕ := if a ∈ p then new a else old a

variable {new old : ℕ → Option ℕ}

theorem passed_concat (p : List ℕ) (a : ℕ) (new old : ℕ → Option ℕ) :
    passed (p ++ [a]) new old = Function.update (passed p new old) a (new a) := by
  funext b
  rcases eq_or_ne b a with rfl | hne
  · rw [Function.update_self]
    exact if_pos (List.mem_append_right p List.mem_cons_self)
  · rw [Function.update_of_ne hne]
    simp [passed, hne]

theorem passed_of_notMem (ha : a ∉ p) : passed p new old a = old a := if_neg ha

theorem passed_of_mem (ha : a ∈ p) : passed p new old a = new a := if_pos ha

/-- the node at which a loop is -/
theorem mem_and_notMem {s : List ℕ} (hnodup : l.Nodup) (hl : l = p ++ a :: s) : a ∈ l ∧ a ∉ p := by
  rw [hl] at hnodup ⊢
  exact ⟨List.mem_append_right p List.mem_cons_self,
    fun hmem => List.disjoint_of_nodup_append hnodup hmem List.mem_cons_self⟩

section Passes

variable (hf : Fresh h₀ l f) (hnodup : l.Nodup) {s : List ℕ} {curr : Option ℕ} {fuel : ℕ}
include hf hnodup

omit hnodup in
theorem Fresh.subset (hp : ∀ a ∈ p, a ∈ l) : Fresh h₀ p f :=
  ⟨fun a ha => hf.allocated a (hp a ha), fun a ha => hf.new a (hp a ha),
    fun a ha b hb => hf.inj a (hp a ha) b (hp b hb)⟩

/-- where the next copy is made: the original is as it was, and its copy will be the new node -/
theorem next_copy (haddr : ∀ p a s, l = p ++ a :: s → f a = h₀.fresh + p.length) (hl : l = p ++ a :: s)
    (hc : Cells h₀ h p f orig copy rand) (hn : h₀.nodes a = some n) (hfresh : h.fresh = h₀.fresh + p.length) :
    Fresh h₀ (p ++ [a]) f ∧ a ∉ p ∧ h.nodes a = some n ∧ f a = h.fresh := by
  have hap := (mem_and_notMem hnodup hl).2
  have hfp : Fresh h₀ (p ++ [a]) f := by
    refine hf.subset fun b hb => ?_
    rw [hl, List.append_cons]
    exact List.mem_append_left _ hb
  refine ⟨hfp, hap, ?_, by rw [haddr p a s hl, hfresh]⟩
  rw [hc.other a hap fun b hb => hfp.apart (List.mem_append_left _ hb) (List.mem_append_right p List.mem_cons_self), hn]

omit hf hnodup in
theorem fresh_new {x : ℤ} (a : ℕ) (hfresh : h.fresh = h₀.fresh + p.length) :
    (h.new x).fresh = h₀.fresh + (p ++ [a]).length := by
  rw [List.length_append, List.length_singleton, ← add_assoc, ← hfresh]
  rfl

/-- the copies are made in the order of the list -/
theorem weave_spec (haddr : ∀ p a s, l = p ++ a :: s → f a = h₀.fresh + p.length) (hl : l = p ++ s)
    (hchain : HeapChain h₀.link curr s) (hc : Cells h₀ h p f (fun a => some (f a)) (nextOf h₀) fun _ => none)
    (hfresh : h.fresh = h₀.fresh + p.length) (hfuel : s.length < fuel) :
    ∃ h', weave fuel h curr = some h' ∧ Cells h₀ h' l f (fun a => some (f a)) (nextOf h₀) fun _ => none := by
  induction fuel generalizing h p s curr with
  | zero => cases hfuel
  | succ fuel ih =>
    cases s with
    | nil =>
      obtain rfl : curr = none := hchain
      rw [List.append_nil] at hl
      exact ⟨h, rfl, hl ▸ hc⟩
    | cons a s =>
      obtain ⟨rfl, n, hn, hrest⟩ := chain_cons hchain
      obtain ⟨hfp, hap, hold, hfa⟩ := next_copy hf hnodup haddr hl hc hn hfresh
      have hlast : a ∈ p ++ [a] := List.mem_append_right p List.mem_cons_self
      have hkeep : ∀ b ∈ p, b ≠ a := fun b hb heq => hap (heq ▸ hb)
      -- the new node, with links that are assigned next
      have hc₁ : Cells h₀ (h.new n.data) (p ++ [a]) f (Function.update (fun a => some (f a)) a n.next)
          (Function.update (nextOf h₀) a none) fun _ => none :=
        (hc.congr (fun b hb => Function.update_of_ne (hkeep b hb) _ _) (fun b hb => Function.update_of_ne (hkeep b hb) _ _)
          fun _ _ => rfl).new hfp hap hn hfa (Function.update_self _ _ _) (Function.update_self _ _ _) rfl
      have hread := hc₁.original a hlast n hn
      obtain ⟨h₂, hset₂, hfresh₂, hc₂⟩ := hc₁.setCopy hfp hlast n.next
      obtain ⟨h₃, hset₃, hfresh₃, hc₃⟩ := hc₂.setOriginal hfp hlast (some (f a))
      have htemp := hc₃.copied a hlast n hn
      rw [Function.update_self] at hread htemp
      rw [hfa] at hset₂ hset₃ htemp
      have hgoes : weave (fuel + 1) h (some a) = weave fuel h₃ n.next := by
        simp only [weave, hold, Option.bind_eq_bind, Option.bind_some, hread, hset₂, hset₃, htemp]
      rw [hgoes]
      -- the links are as before this round, apart from those of the new node
      have hnextOf : n.next = nextOf h₀ a := (nextOf_eq hn).symm
      rw [Function.update_idem, Function.update_idem, Function.update_eq_self, hnextOf, Function.update_eq_self] at hc₃
      have hfresh' := fresh_new (x := n.data) a hfresh
      exact ih (p := p ++ [a]) (by rw [hl, List.append_cons]) hrest hc₃ (by rw [hfresh₃, hfresh₂, hfresh'])
        (Nat.lt_of_succ_lt_succ hfuel)

variable (hclosed : ∀ a ∈ l, ∀ n, h₀.nodes a = some n → ∀ t, n.random = some t → t ∈ l)
include hclosed

omit hnodup in
/-- each copy gets the copy of its original's random target -/
theorem copyRandom_spec (ha : a ∈ l) (hap : a ∉ p)
    (hc : Cells h₀ h l f (fun a => some (f a)) copy (passed p (image f (randomOf h₀)) fun _ => none)) :
    ∃ h', copyRandom h a = some h' ∧
      Cells h₀ h' l f (fun a => some (f a)) copy (passed (p ++ [a]) (image f (randomOf h₀)) fun _ => none) := by
  obtain ⟨n, hn⟩ := hf.allocated a ha
  rw [passed_concat, copyRandom, hc.original a ha n hn, image, randomOf_eq hn]
  cases hrandom : n.random with
  | none =>
    -- the copy's random pointer is null from the start
    have hnull : passed p (image f (randomOf h₀)) (fun _ => none) a = none := passed_of_notMem hap
    refine ⟨h, rfl, ?_⟩
    rw [Option.map_none, Function.update_eq_self_iff.2 hnull.symm]
    exact hc
  | some t =>
    have ht := hclosed a ha n hn t hrandom
    obtain ⟨m, hm⟩ := hf.allocated t ht
    obtain ⟨h', hset, -, hc'⟩ := hc.setRandom hf ha (some (f t))
    have htarget : h.get (some t) = some ⟨m.data, some (f t), m.random⟩ := hc.original t ht m hm
    refine ⟨h', ?_, hc'⟩
    simp [htarget, hset]

theorem linkRandom_spec (hl : l = p ++ s) (hchain : HeapChain h₀.link curr s)
    (hc : Cells h₀ h l f (fun a => some (f a)) (nextOf h₀) (passed p (image f (randomOf h₀)) fun _ => none))
    (hfuel : s.length < fuel) :
    ∃ h', linkRandom fuel h curr = some h' ∧ Cells h₀ h' l f (fun a => some (f a)) (nextOf h₀) (image f (randomOf h₀)) := by
  induction fuel generalizing h p s curr with
  | zero => cases hfuel
  | succ fuel ih =>
    cases s with
    | nil =>
      obtain rfl : curr = none := hchain
      rw [List.append_nil] at hl
      exact ⟨h, rfl, hc.congr (fun _ _ => rfl) (fun _ _ => rfl) fun a ha => (passed_of_mem (hl ▸ ha)).symm⟩
    | cons a s =>
      obtain ⟨rfl, n, hn, hrest⟩ := chain_cons hchain
      obtain ⟨hal, hap⟩ := mem_and_notMem hnodup hl
      obtain ⟨h', hset, hc'⟩ := copyRandom_spec hf hclosed hal hap hc
      have horiginal := hc'.original a hal n hn
      have hcopy : h'.get (some (f a)) = _ := hc'.copied a hal n hn
      rw [linkRandom, hset]
      simp only [Option.bind_eq_bind, Option.bind_some, horiginal, hcopy, nextOf_eq hn]
      exact ih (p := p ++ [a]) (by rw [hl, List.append_cons]) hrest hc' (Nat.lt_of_succ_lt_succ hfuel)

omit hclosed

omit hf hnodup in
/-- the `next` of an original is its copy, whose `next` is the next original -/
theorem overNext_original (hal : a ∈ l) (hap : a ∉ p) (hn : h₀.nodes a = some n)
    (hc : Cells h₀ h l f (passed p (nextOf h₀) fun a => some (f a)) (passed p copy (nextOf h₀)) rand) :
    overNext h (some a) = some n.next := by
  have horiginal : h.get (some a) = _ := hc.original a hal n hn
  have hcopy : h.get (some (f a)) = _ := hc.copied a hal n hn
  rw [passed_of_notMem hap] at horiginal hcopy
  simp [overNext, horiginal, hcopy, nextOf_eq hn]

omit hf in
/-- the `next` of a copy is the next original, whose `next` is its copy, if there is one -/
theorem overNext_copy (hl : l = p ++ a :: s) (hrest : HeapChain h₀.link n.next s) (hn : h₀.nodes a = some n)
    (hc : Cells h₀ h l f (Function.update (passed p (nextOf h₀) fun a => some (f a)) a v) (passed p copy (nextOf h₀)) rand) :
    overNext h (some (f a)) = some (n.next.map f) := by
  obtain ⟨hal, hap⟩ := mem_and_notMem hnodup hl
  have hcopy : h.get (some (f a)) = _ := hc.copied a hal n hn
  rw [passed_of_notMem hap, nextOf_eq hn] at hcopy
  cases s with
  | nil =>
    have hlast : n.next = none := hrest
    simp [overNext, hcopy, hlast]
  | cons b s =>
    obtain ⟨hnext, m, hm, -⟩ := chain_cons hrest
    have hl' : l = p ++ [a] ++ b :: s := by rw [hl, List.append_cons]
    obtain ⟨hbl, hbp⟩ := mem_and_notMem hnodup hl'
    have hba : b ≠ a := fun heq => hbp (heq ▸ List.mem_append_right p List.mem_cons_self)
    have horiginal : h.get (some b) = _ := hc.original b hbl m hm
    rw [Function.update_of_ne hba, passed_of_notMem fun hmem => hbp (List.mem_append_left _ hmem)] at horiginal
    simp [overNext, hcopy, hnext, horiginal]

/-- the next original and its copy are taken out of each other's way -/
theorem unweave_spec (hl : l = p ++ s) (hchain : HeapChain h₀.link curr s)
    (hc : Cells h₀ h l f (passed p (nextOf h₀) fun a => some (f a)) (passed p (image f (nextOf h₀)) (nextOf h₀)) rand)
    (hfuel : s.length < fuel) :
    ∃ h', unweave fuel h curr (curr.map f) = some h' ∧ Cells h₀ h' l f (nextOf h₀) (image f (nextOf h₀)) rand := by
  induction fuel generalizing h p s curr with
  | zero => cases hfuel
  | succ fuel ih =>
    cases s with
    | nil =>
      obtain rfl : curr = none := hchain
      rw [List.append_nil] at hl
      exact ⟨h, rfl, hc.congr (fun a ha => (passed_of_mem (hl ▸ ha)).symm) (fun a ha => (passed_of_mem (hl ▸ ha)).symm)
        fun _ _ => rfl⟩
    | cons a s =>
      obtain ⟨rfl, n, hn, hrest⟩ := chain_cons hchain
      obtain ⟨hal, hap⟩ := mem_and_notMem hnodup hl
      have hover := overNext_original hal hap hn hc
      obtain ⟨h₁, hset₁, -, hc₁⟩ := hc.setOriginal hf hal n.next
      have hover₁ := overNext_copy hnodup hl hrest hn hc₁
      obtain ⟨h₂, hset₂, -, hc₂⟩ := hc₁.setCopy hf hal (n.next.map f)
      have horiginal := hc₂.original a hal n hn
      have hcopy := hc₂.copied a hal n hn
      rw [Function.update_self] at horiginal hcopy
      have hgoes : unweave (fuel + 1) h (some a) (some (f a)) = unweave fuel h₂ n.next (n.next.map f) := by
        simp only [unweave, hover, Option.bind_eq_bind, Option.bind_some, hset₁, hover₁, hset₂, horiginal, hcopy]
      rw [Option.map_some, hgoes]
      refine ih (p := p ++ [a]) (by rw [hl, List.append_cons]) hrest ?_ (Nat.lt_of_succ_lt_succ hfuel)
      rw [passed_concat, passed_concat, image, nextOf_eq hn]
      exact hc₂

/-- the map from the nodes behind the loop to their copies -/
def Maps (mp : Map) (p : List ℕ) (f : ℕ → ℕ) : Prop := mp none = none ∧ ∀ a ∈ p, mp (some a) = some (f a)

theorem copyNodes_spec {mp : Map} (haddr : ∀ p a s, l = p ++ a :: s → f a = h₀.fresh + p.length) (hl : l = p ++ s)
    (hchain : HeapChain h₀.link curr s) (hc : Cells h₀ h p f (nextOf h₀) (fun _ => none) fun _ => none) (hmp : Maps mp p f)
    (hfresh : h.fresh = h₀.fresh + p.length) (hfuel : s.length < fuel) :
    ∃ h' mp', copyNodes fuel h mp curr = some (h', mp') ∧ Maps mp' l f ∧
      Cells h₀ h' l f (nextOf h₀) (fun _ => none) fun _ => none := by
  induction fuel generalizing h p s curr mp with
  | zero => cases hfuel
  | succ fuel ih =>
    cases s with
    | nil =>
      obtain rfl : curr = none := hchain
      rw [List.append_nil] at hl
      exact ⟨h, mp, rfl, hl ▸ hmp, hl ▸ hc⟩
    | cons a s =>
      obtain ⟨rfl, n, hn, hrest⟩ := chain_cons hchain
      obtain ⟨hfp, hap, hold, hfa⟩ := next_copy hf hnodup haddr hl hc hn hfresh
      have hlast : a ∈ p ++ [a] := List.mem_append_right p List.mem_cons_self
      have hc' := hc.new hfp hap hn hfa (nextOf_eq hn) rfl rfl
      have horiginal := hc'.original a hlast n hn
      rw [nextOf_eq hn] at horiginal
      have hgoes : copyNodes (fuel + 1) h mp (some a) =
          copyNodes fuel (h.new n.data) (Function.update mp (some a) (some (f a))) n.next := by
        simp only [copyNodes, hold, Option.bind_eq_bind, Option.bind_some, horiginal, hfa]
      rw [hgoes]
      refine ih (p := p ++ [a]) (by rw [hl, List.append_cons]) hrest hc' ⟨?_, fun b hb => ?_⟩
        (fresh_new a hfresh) (Nat.lt_of_succ_lt_succ hfuel)
      · rw [Function.update_of_ne (Option.some_ne_none a).symm, hmp.1]
      · rcases eq_or_ne b a with rfl | hne
        · rw [Function.update_self]
        · rw [Function.update_of_ne fun heq => hne (Option.some.inj heq)]
          refine hmp.2 b ?_
          rcases List.mem_append.1 hb with hb | hb
          · exact hb
          · exact absurd (List.mem_singleton.1 hb) hne

/-- the map sends the links of the list to the links of the copies -/
theorem linkCopies_spec {mp : Map} (hmp : Maps mp l f)
    (hclosed : ∀ a ∈ l, ∀ n, h₀.nodes a = some n → (∀ t, n.next = some t → t ∈ l) ∧ ∀ t, n.random = some t → t ∈ l)
    (hl : l = p ++ s) (hchain : HeapChain h₀.link curr s)
    (hc : Cells h₀ h l f (nextOf h₀) (passed p (image f (nextOf h₀)) fun _ => none)
      (passed p (image f (randomOf h₀)) fun _ => none)) (hfuel : s.length < fuel) :
    ∃ h', linkCopies mp fuel h curr = some h' ∧
      Cells h₀ h' l f (nextOf h₀) (image f (nextOf h₀)) (image f (randomOf h₀)) := by
  have hmap : ∀ v : Option ℕ, (∀ t, v = some t → t ∈ l) → mp v = v.map f := by
    intro v hv
    cases v with
    | none => exact hmp.1
    | some t => exact hmp.2 t (hv t rfl)
  induction fuel generalizing h p s curr with
  | zero => cases hfuel
  | succ fuel ih =>
    cases s with
    | nil =>
      obtain rfl : curr = none := hchain
      rw [List.append_nil] at hl
      exact ⟨h, rfl, hc.congr (fun _ _ => rfl) (fun a ha => (passed_of_mem (hl ▸ ha)).symm)
        fun a ha => (passed_of_mem (hl ▸ ha)).symm⟩
    | cons a s =>
      obtain ⟨rfl, n, hn, hrest⟩ := chain_cons hchain
      obtain ⟨hal, -⟩ := mem_and_notMem hnodup hl
      obtain ⟨hnext, hrandom⟩ := hclosed a hal n hn
      obtain ⟨h₁, hset₁, -, hc₁⟩ := hc.setCopy hf hal (n.next.map f)
      obtain ⟨h₂, hset₂, -, hc₂⟩ := hc₁.setRandom hf hal (n.random.map f)
      have hgoes : linkCopies mp (fuel + 1) h (some a) = linkCopies mp fuel h₂ n.next := by
        simp only [linkCopies, hc.original a hal n hn, Option.bind_eq_bind, Option.bind_some, nextOf_eq hn, hmap _ hnext,
          hmp.2 a hal, hset₁, hc₁.original a hal n hn, hmap _ hrandom, hset₂, hc₂.original a hal n hn]
      rw [hgoes]
      refine ih (p := p ++ [a]) (by rw [hl, List.append_cons]) hrest ?_ (Nat.lt_of_succ_lt_succ hfuel)
      rw [passed_concat, passed_concat, image, image, nextOf_eq hn, randomOf_eq hn]
      exact hc₂

end Passes

/-! ## Isomorphism -/

/-- the list `l` from `head₁` in `h₁` and its image from `head₂` in `h₂`: the same data, and links to the images of the targets -/
structure Iso (h₁ : Heap) (head₁ : Option ℕ) (h₂ : Heap) (head₂ : Option ℕ) (l : List ℕ) (g : ℕ → ℕ) : Prop where
  list : HeapChain h₁.link head₁ l
  image : HeapChain h₂.link head₂ (l.map g)
  nodes : ∀ a ∈ l, ∀ n, h₁.nodes a = some n → h₂.nodes (g a) = some ⟨n.data, n.next.map g, n.random.map g⟩

/-- a list whose links stay in it -/
def Closed (h : Heap) (l : List ℕ) : Prop :=
  ∀ a ∈ l, ∀ n, h.nodes a = some n → (∀ t, n.next = some t → t ∈ l) ∧ ∀ t, n.random = some t → t ∈ l

/-- the image of a list under the addresses of its copies -/
theorem chain_map {head : Option ℕ} {s : List ℕ} {g : ℕ → ℕ} (hchain : HeapChain h₁.link head s)
    (hnodes : ∀ a ∈ s, ∀ n, h₁.nodes a = some n → ∃ n', h₂.nodes (g a) = some n' ∧ n'.next = n.next.map g) :
    HeapChain h₂.link (head.map g) (s.map g) := by
  induction s generalizing head with
  | nil =>
    obtain rfl : head = none := hchain
    rfl
  | cons a s ih =>
    obtain ⟨rfl, n, hn, hrest⟩ := chain_cons hchain
    rw [List.forall_mem_cons] at hnodes
    obtain ⟨n', hn', hnext⟩ := hnodes.1 n hn
    refine ⟨rfl, n.next.map g, ?_, ih hrest hnodes.2⟩
    rw [Heap.link, hn', Option.map_some, hnext]

theorem Cells.iso {head : Option ℕ} (hc : Cells h₀ h l f (nextOf h₀) (Clone.image f (nextOf h₀)) (Clone.image f (randomOf h₀)))
    (hlist : HeapChain h₀.link head l) : Iso h₀ head h (head.map f) l f := by
  have hnodes : ∀ a ∈ l, ∀ n, h₀.nodes a = some n → h.nodes (f a) = some ⟨n.data, n.next.map f, n.random.map f⟩ := by
    intro a ha n hn
    rw [hc.copied a ha n hn, Clone.image, Clone.image, nextOf_eq hn, randomOf_eq hn]
  exact ⟨hlist, chain_map hlist fun a ha n hn => ⟨_, hnodes a ha n hn, rfl⟩, hnodes⟩

/-- what was there is as it was -/
theorem Cells.kept (hc : Cells h₀ h l f (nextOf h₀) copy rand) (hf : Fresh h₀ l f) (hn : h₀.nodes a = some n) :
    h.nodes a = some n := by
  by_cases ha : a ∈ l
  · rw [hc.original a ha n hn, nextOf_eq hn]
  · rw [hc.other a ha, hn]
    rintro b hb rfl
    cases (hf.new b hb).symm.trans hn

/-- two images of a list are images of each other -/
theorem Iso.compare {head head₁ head₂ : Option ℕ} {f₁ f₂ : ℕ → ℕ} (i₁ : Iso h head h₁ head₁ l f₁) (i₂ : Iso h head h₂ head₂ l f₂)
    (hclosed : Closed h l) : ∃ g, Iso h₁ head₁ h₂ head₂ (l.map f₁) g ∧ ∀ a ∈ l, g (f₁ a) = f₂ a := by
  have hinj : Set.InjOn f₁ {a | a ∈ l} := fun a ha b hb heq => List.inj_on_of_nodup_map i₁.image.nodup ha hb heq
  let g := f₂ ∘ Function.invFunOn f₁ {a | a ∈ l}
  have hg : ∀ a ∈ l, g (f₁ a) = f₂ a := fun a ha => congrArg f₂ (hinj.leftInvOn_invFunOn ha)
  have htarget : ∀ v : Option ℕ, (∀ t, v = some t → t ∈ l) → (v.map f₁).map g = v.map f₂ := by
    intro v hv
    cases v with
    | none => rfl
    | some t => exact congrArg some (hg t (hv t rfl))
  refine ⟨g, ⟨i₁.image, ?_, fun b hb m hm => ?_⟩, hg⟩
  · have himage : l.map (g ∘ f₁) = l.map f₂ := List.map_congr_left hg
    rw [List.map_map, himage]
    exact i₂.image
  · obtain ⟨a, ha, rfl⟩ := List.mem_map.1 hb
    obtain ⟨next, hnext⟩ := Option.isSome_iff_exists.1 (i₁.list.allocated ha)
    obtain ⟨n, hn, -⟩ := Option.map_eq_some_iff.1 hnext
    obtain rfl := Option.some.inj ((i₁.nodes a ha n hn).symm.trans hm)
    rw [hg a ha, i₂.nodes a ha n hn, htarget _ (hclosed a ha n hn).1, htarget _ (hclosed a ha n hn).2]

/-! ## Both copies -/

/-- the copies are allocated in the order of the list -/
def copyAddr (h : Heap) (l : List ℕ) (a : ℕ) : ℕ := h.fresh + l.idxOf a

section Clones

variable {head : Option ℕ} (hlist : HeapChain h.link head l) {fuel : ℕ}
include hlist

theorem fresh_copyAddr : Fresh h l (copyAddr h l) := by
  refine ⟨fun a ha => ?_, fun a ha => h.bounded _ (Nat.le_add_right _ _), fun a ha b hb heq => ?_⟩
  · obtain ⟨next, hnext⟩ := Option.isSome_iff_exists.1 (hlist.allocated ha)
    obtain ⟨n, hn, -⟩ := Option.map_eq_some_iff.1 hnext
    exact ⟨n, hn⟩
  · exact (List.idxOf_inj ha).1 (Nat.add_left_cancel heq)

theorem copyAddr_eq (p : List ℕ) (a : ℕ) (s : List ℕ) (hl : l = p ++ a :: s) : copyAddr h l a = h.fresh + p.length := by
  have hap := (mem_and_notMem hlist.nodup hl).2
  rw [copyAddr, hl, List.idxOf_append_of_notMem hap, List.idxOf_cons_self, Nat.add_zero]

/-- the `next` fields of a list stay in it -/
theorem next_mem {t : ℕ} (ha : a ∈ l) (hn : h.nodes a = some n) (ht : n.next = some t) : t ∈ l := by
  obtain ⟨l₁, l₂, rfl, hfrom⟩ := hlist.from_mem ha
  obtain ⟨next, l', rfl, hlink, hrest⟩ := hfrom.of_some
  rw [Heap.link, hn, Option.map_some, ht] at hlink
  obtain rfl := Option.some.inj hlink
  obtain ⟨-, l'', rfl, -, -⟩ := hrest.of_some
  exact List.mem_append_right _ (List.mem_cons_of_mem a List.mem_cons_self)

theorem cloneLinkedList2_spec (hrandom : ∀ a ∈ l, ∀ n, h.nodes a = some n → ∀ t, n.random = some t → t ∈ l)
    (hfuel : l.length < fuel) :
    ∃ h', cloneLinkedList2 fuel h head = some (h', head.map (copyAddr h l)) ∧
      Cells h h' l (copyAddr h l) (nextOf h) (image (copyAddr h l) (nextOf h)) (image (copyAddr h l) (randomOf h)) := by
  have hf := fresh_copyAddr hlist
  cases l with
  | nil =>
    obtain rfl : head = none := hlist
    exact ⟨h, rfl, Cells.nil h _ _ _ _⟩
  | cons a s =>
    obtain ⟨rfl, n, hn, -⟩ := chain_cons hlist
    have hnodup := hlist.nodup
    obtain ⟨h₁, hweave, hc₁⟩ := weave_spec hf hnodup (copyAddr_eq hlist) (p := []) rfl hlist
      (Cells.nil h _ _ _ _) rfl hfuel
    obtain ⟨h₂, hlink, hc₂⟩ := linkRandom_spec hf hnodup hrandom (p := []) rfl hlist hc₁ hfuel
    have hhead : h₂.get (some a) = _ := hc₂.original a List.mem_cons_self n hn
    obtain ⟨h₃, hunweave, hc₃⟩ := unweave_spec hf hnodup (p := []) rfl hlist hc₂ hfuel
    refine ⟨h₃, ?_, hc₃⟩
    rw [Option.map_some] at hunweave ⊢
    unfold cloneLinkedList2
    simp only [reduceCtorEq, if_false, hweave, Option.bind_eq_bind, Option.bind_some, hlink, hhead, hunweave]

theorem cloneLinkedList_spec (hclosed : Closed h l) (hfuel : l.length < fuel) :
    ∃ h', cloneLinkedList fuel h head = some (h', head.map (copyAddr h l)) ∧
      Cells h h' l (copyAddr h l) (nextOf h) (image (copyAddr h l) (nextOf h)) (image (copyAddr h l) (randomOf h)) := by
  have hf := fresh_copyAddr hlist
  have hnodup := hlist.nodup
  have hempty : Maps (fun _ => none) [] (copyAddr h l) := ⟨rfl, fun _ ha => absurd ha List.not_mem_nil⟩
  obtain ⟨h₁, mp, hcopy, hmp, hc₁⟩ := copyNodes_spec hf hnodup (copyAddr_eq hlist) (p := []) rfl hlist
    (Cells.nil h _ _ _ _) hempty rfl hfuel
  obtain ⟨h₂, hlink, hc₂⟩ := linkCopies_spec hf hnodup hmp hclosed (p := []) rfl hlist hc₁ hfuel
  refine ⟨h₂, ?_, hc₂⟩
  have hhead : mp head = head.map (copyAddr h l) := by
    cases l with
    | nil =>
      obtain rfl : head = none := hlist
      exact hmp.1
    | cons a s =>
      obtain ⟨rfl, -⟩ := chain_cons hlist
      exact hmp.2 a List.mem_cons_self
  unfold cloneLinkedList
  simp only [hcopy, Option.bind_eq_bind, Option.bind_some, hlink, hhead]

end Clones

/-- **Copies.** For every list whose random pointers are null or go to nodes of the list, and enough rounds, `cloneLinkedList2`
returns a list of new nodes that is isomorphic to it and leaves every node there was as it was, and so does `cloneLinkedList`,
with a list that is isomorphic to that one. -/
theorem clones_isomorphic (h : Heap) (head : Option ℕ) (l : List ℕ) (hlist : HeapChain h.link head l)
    (hrandom : ∀ a ∈ l, ∀ n, h.nodes a = some n → ∀ t, n.random = some t → t ∈ l) :
    ∃ rounds, ∀ fuel ≥ rounds, ∃ h₁ copy f h₂ copy' g,
      cloneLinkedList2 fuel h head = some (h₁, copy) ∧ Iso h head h₁ copy l f ∧ (∀ a ∈ l, h.nodes (f a) = none) ∧
        (∀ a n, h.nodes a = some n → h₁.nodes a = some n) ∧
        cloneLinkedList fuel h head = some (h₂, copy') ∧ Iso h₁ copy h₂ copy' (l.map f) g ∧
        (∀ a ∈ l, h.nodes (g (f a)) = none) ∧ ∀ a n, h.nodes a = some n → h₂.nodes a = some n := by
  have hf := fresh_copyAddr hlist
  have hclosed : Closed h l := fun a ha n hn => ⟨fun t ht => next_mem hlist ha hn ht, hrandom a ha n hn⟩
  refine ⟨l.length + 1, fun fuel hfuel => ?_⟩
  obtain ⟨h₁, hclone₁, hc₁⟩ := cloneLinkedList2_spec hlist hrandom hfuel
  obtain ⟨h₂, hclone₂, hc₂⟩ := cloneLinkedList_spec hlist hclosed hfuel
  obtain ⟨g, hiso, hg⟩ := (hc₁.iso hlist).compare (hc₂.iso hlist) hclosed
  refine ⟨h₁, _, _, h₂, _, g, hclone₁, hc₁.iso hlist, hf.new, fun a n hn => hc₁.kept hf hn, hclone₂, hiso, fun a ha => ?_,
    fun a n hn => hc₂.kept hf hn⟩
  rw [hg a ha]
  exact hf.new a ha

/-- the list of `main`, at the addresses 0 to 4 -/
def mainHeap : Heap where
  nodes
    | 0 => some ⟨1, some 1, some 2⟩
    | 1 => some ⟨2, some 2, some 0⟩
    | 2 => some ⟨3, some 3, some 4⟩
    | 3 => some ⟨4, some 4, some 2⟩
    | 4 => some ⟨5, none, some 1⟩
    | _ => none
  fresh := 5
  bounded a ha := by
    obtain ⟨k, rfl⟩ := Nat.exists_eq_add_of_le' ha
    rfl

theorem clones_isomorphic_main :
    HeapChain mainHeap.link (some 0) [0, 1, 2, 3, 4] ∧
      (∀ a ∈ [0, 1, 2, 3, 4], ∀ n, mainHeap.nodes a = some n → ∀ t, n.random = some t → t ∈ [0, 1, 2, 3, 4]) ∧
      ∃ rounds, ∀ fuel ≥ rounds, ∃ h₁ copy f h₂ copy' g,
        cloneLinkedList2 fuel mainHeap (some 0) = some (h₁, copy) ∧ Iso mainHeap (some 0) h₁ copy [0, 1, 2, 3, 4] f ∧
          (∀ a ∈ [0, 1, 2, 3, 4], mainHeap.nodes (f a) = none) ∧
          (∀ a n, mainHeap.nodes a = some n → h₁.nodes a = some n) ∧
          cloneLinkedList fuel mainHeap (some 0) = some (h₂, copy') ∧
          Iso h₁ copy h₂ copy' ([0, 1, 2, 3, 4].map f) g ∧
          (∀ a ∈ [0, 1, 2, 3, 4], mainHeap.nodes (g (f a)) = none) ∧
          ∀ a n, mainHeap.nodes a = some n → h₂.nodes a = some n := by
  have hlist : HeapChain mainHeap.link (some 0) [0, 1, 2, 3, 4] :=
    ⟨rfl, _, rfl, rfl, _, rfl, rfl, _, rfl, rfl, _, rfl, rfl, _, rfl, rfl⟩
  have hrandom : ∀ a ∈ [0, 1, 2, 3, 4], ∀ n, mainHeap.nodes a = some n → ∀ t, n.random = some t → t ∈ [0, 1, 2, 3, 4] := by
    simp [mainHeap]
  exact ⟨hlist, hrandom, clones_isomorphic mainHeap (some 0) _ hlist hrandom⟩

end InterviewPrep.LinkedList.Clone
