/-
The simple cache (lruCache/simple/lruCacheSimple.c): nodes allocated one by one, in a doubly linked list between two
sentinels, and a table of 10000 node pointers indexed by `key % 10000`.

The table has one pointer for each remainder and no key is compared (the cache of lruCacheWithHashing.c compares the key
of the node it finds), so two keys with the same remainder are one key to it; a negative remainder is an index before
the table.

Model: addresses are numbers, `malloc` hands out the next one, `live` are the allocated ones. A call is `none` if it
reads or writes a node that is not allocated, or the table out of its bounds.

The sentinels are one cell to the links: `nxt` of `tail` is read as `head`, so the list is a `Ring` (`Listed`).

`Cells c ids`: `ids` is the list, its nodes are allocated, and the table points at exactly them.
- `moveToHead_cells`, `addNew_cells`, `evict_cells`: what the parts of a call do to the list, the table and the memory,
  for any keys.
-/
import InterviewPrep.Core.Ring

namespace InterviewPrep.LruCache.Simple

abbrev tableSize : ℕ := 10000

/-- `struct LRUCache` and the nodes it points to, field by field -/
structure Cache where
  key : ℕ → ℤ
  value : ℕ → ℤ
  prev : ℕ → ℕ
  next : ℕ → ℕ
  live : ℕ → Bool
  fresh : ℕ
  size : ℤ
  capacity : ℤ
  head : ℕ
  tail : ℕ
  hash : ℕ → Option ℕ

namespace Cache

/-- `key % 10000` as an index of the table -/
def slot (key : ℤ) : Option ℕ := if 0 ≤ key.tmod tableSize then some (key.tmod tableSize).toNat else none

/-- what `malloc` leaves unset is zero here -/
def createCache (capacity : ℤ) : Cache where
  key _ := 0
  value _ := 0
  -- `head->next = tail`, `tail->prev = head`
  next := Function.update (fun _ => 0) 0 1
  prev := Function.update (fun _ => 0) 1 0
  live a := a < 2
  fresh := 2
  size := 0
  capacity := capacity
  head := 0
  tail := 1
  hash _ := none

def setPrev (c : Cache) (a v : ℕ) : Cache := { c with prev := Function.update c.prev a v }

def setNext (c : Cache) (a v : ℕ) : Cache := { c with next := Function.update c.next a v }

def setValue (c : Cache) (a : ℕ) (v : ℤ) : Cache := { c with value := Function.update c.value a v }

def setHash (c : Cache) (s : ℕ) (p : Option ℕ) : Cache := { c with hash := Function.update c.hash s p }

def addSize (c : Cache) (d : ℤ) : Cache := { c with size := c.size + d }

def addNode (c : Cache) (node : ℕ) : Option Cache :=
  if c.live node ∧ c.live c.head ∧ c.live (c.next c.head) then
    let c := c.setPrev node c.head
    let c := c.setNext node (c.next c.head)
    let c := c.setPrev (c.next c.head) node
    some (c.setNext c.head node)
  else none

def removeNode (c : Cache) (node : ℕ) : Option Cache :=
  if c.live node ∧ c.live (c.prev node) ∧ c.live (c.next node) then
    let c := c.setNext (c.prev node) (c.next node)
    some (c.setPrev (c.next node) (c.prev node))
  else none

def moveToHead (c : Cache) (node : ℕ) : Option Cache := (c.removeNode node).bind fun c => c.addNode node

def get (c : Cache) (key : ℤ) : Option (Cache × ℤ) :=
  (slot key).bind fun idx =>
    match c.hash idx with
    | some node => (c.moveToHead node).map fun c => (c, c.value node)
    | none => some (c, -1)

/-- `malloc` of a node and its key and value -/
def newNode (c : Cache) (key value : ℤ) : Cache :=
  { c with
    live := Function.update c.live c.fresh true
    fresh := c.fresh + 1
    key := Function.update c.key c.fresh key
    value := Function.update c.value c.fresh value }

def free (c : Cache) (a : ℕ) : Cache := { c with live := Function.update c.live a false }

/-- the end of `put`, when there is a node too many -/
def evict (c : Cache) : Option Cache :=
  let lru := c.prev c.tail
  (c.removeNode lru).bind fun c =>
    (slot (c.key lru)).map fun idx => ((c.setHash idx none).free lru).addSize (-1)

def put (c : Cache) (key value : ℤ) : Option Cache :=
  (slot key).bind fun idx =>
    match c.hash idx with
    | some node => (c.setValue node value).moveToHead node
    | none =>
      let node := c.fresh
      (((c.newNode key value).setHash idx (some node)).addNode node).bind fun c =>
        let c := c.addSize 1
        if c.capacity < c.size then c.evict else some c

/-- the cached keys, most recent first: from `head` by `next` up to `tail` -/
def keys (c : Cache) : Option (List ℤ) :=
  (Ring.follow c.next c.tail (c.size.toNat + 1) (c.next c.head)).map (List.map c.key)

/-! ## The list between the sentinels -/

/-- the two sentinels close the circle -/
def nxt (c : Cache) (a : ℕ) : ℕ := if a = c.tail then c.head else c.next a

def prv (c : Cache) (a : ℕ) : ℕ := if a = c.head then c.tail else c.prev a

variable {c : Cache} {a i v : ℕ} {ids l r : List ℕ}

theorem nxt_cell (ha : a ≠ c.tail) : c.nxt a = c.next a := if_neg ha

theorem prv_cell (ha : a ≠ c.head) : c.prv a = c.prev a := if_neg ha

theorem nxt_setNext (ha : a ≠ c.tail) : (c.setNext a v).nxt = Function.update c.nxt a v := by
  funext b
  rcases eq_or_ne b a with rfl | hb
  · simp [nxt, setNext, ha]
  · simp [nxt, setNext, hb]

theorem prv_setPrev (ha : a ≠ c.head) : (c.setPrev a v).prv = Function.update c.prv a v := by
  funext b
  rcases eq_or_ne b a with rfl | hb
  · simp [prv, setPrev, ha]
  · simp [prv, setPrev, hb]

@[simp] theorem nxt_setPrev : (c.setPrev a v).nxt = c.nxt := rfl

@[simp] theorem prv_setNext : (c.setNext a v).prv = c.prv := rfl

/-- the nodes from `head` to `tail` are `ids` -/
def Listed (c : Cache) (ids : List ℕ) : Prop := Ring c.nxt c.prv c.head (ids ++ [c.tail])

/-- the circle, cut at a node -/
theorem Listed.ring (h : c.Listed (l ++ i :: r)) : Ring c.nxt c.prv c.head (l ++ i :: (r ++ [c.tail])) := by
  rw [← List.cons_append, ← List.append_assoc]
  exact h

theorem Listed.ne_tail (h : c.Listed ids) (hi : i ∈ ids) : i ≠ c.tail := by
  have hnd := (List.nodup_cons.1 h.nodup).2
  rintro rfl
  exact (List.nodup_append.1 hnd).2.2 c.tail hi c.tail (by simp) rfl

theorem Listed.ne_head (h : c.Listed ids) (hi : i ∈ ids) : i ≠ c.head := by
  rintro rfl
  exact h.sentinel_notMem (List.mem_append_left _ hi)

theorem Listed.head_ne_tail (h : c.Listed ids) : c.head ≠ c.tail := by
  intro heq
  exact h.sentinel_notMem (heq ▸ by simp)

/-- only the links differ -/
def relink (c : Cache) (prev next : ℕ → ℕ) : Cache := { c with prev := prev, next := next }

/-- the nodes the list operations touch are allocated -/
def Alive (c : Cache) (ids : List ℕ) : Prop := ∀ a ∈ c.head :: (ids ++ [c.tail]), c.live a = true

theorem Listed.next_head (h : c.Listed ids) : c.nxt c.head = c.next c.head ∧ c.nxt c.head ∈ ids ++ [c.tail] := by
  refine ⟨nxt_cell h.head_ne_tail, ?_⟩
  obtain ⟨x, xs, hxs⟩ : ∃ x xs, ids ++ [c.tail] = x :: xs := List.exists_cons_of_ne_nil (by simp)
  have hring : Ring c.nxt c.prv c.head (x :: xs) := hxs ▸ (h : Ring c.nxt c.prv c.head (ids ++ [c.tail]))
  rw [hring.first, hxs]
  exact List.mem_cons_self

theorem addNode_listed (h : c.Listed ids) (hlive : c.Alive ids) (hi : i ∉ c.head :: (ids ++ [c.tail]))
    (hnode : c.live i = true) :
    ∃ p n, c.addNode i = some (c.relink p n) ∧ (c.relink p n).Listed (i :: ids) := by
  obtain ⟨hnext, hmem⟩ := h.next_head
  have hcond : c.live i ∧ c.live c.head ∧ c.live (c.next c.head) := by
    refine ⟨hnode, hlive _ List.mem_cons_self, hlive _ ?_⟩
    rw [← hnext]
    exact List.mem_cons_of_mem _ hmem
  obtain ⟨hhead, hrest⟩ := List.ne_and_not_mem_of_not_mem_cons hi
  have htail : i ≠ c.tail := fun heq => hrest (heq ▸ by simp)
  have hfirst : c.next c.head ≠ c.head := by
    rw [← hnext]
    intro heq
    exact h.sentinel_notMem (heq ▸ hmem)
  set c' := (((c.setPrev i c.head).setNext i (c.next c.head)).setPrev (c.next c.head) i).setNext c.head i with hc'
  have hadd : c.addNode i = some c' := by
    have hsame : ((c.setPrev i c.head).setNext i (c.next c.head)).next c.head = c.next c.head :=
      Function.update_of_ne hhead.symm ..
    rw [addNode, if_pos hcond]
    exact congrArg (fun a => some ((((c.setPrev i c.head).setNext i (c.next c.head)).setPrev a i).setNext c.head i)) hsame
  have hn : c'.nxt = Function.update (Function.update c.nxt i (c.nxt c.head)) c.head i := by
    rw [hc', nxt_setNext, nxt_setPrev, nxt_setNext, nxt_setPrev, hnext]
    · exact htail
    · exact h.head_ne_tail
  have hp : c'.prv = Function.update (Function.update c.prv i c.head) (c.nxt c.head) i := by
    rw [hc', prv_setNext, prv_setPrev, prv_setNext, prv_setPrev hhead, hnext]
    exact hfirst
  have hring : Ring c'.nxt c'.prv c.head (i :: (ids ++ [c.tail])) := by
    refine Ring.pushFront h hi ?_ ?_ ?_ ?_ ?_ ?_
    · rw [hn, Function.update_self]
    · rw [hn, Function.update_of_ne hhead, Function.update_self]
    · rw [hp, Function.update_of_ne, Function.update_self]
      intro heq
      exact hrest (heq ▸ hmem)
    · rw [hp, Function.update_self]
    · intro a hai hah
      rw [hn, Function.update_of_ne hah, Function.update_of_ne hai]
    · intro a hai hah
      rw [hp, Function.update_of_ne hah, Function.update_of_ne hai]
  exact ⟨c'.prev, c'.next, hadd, hring⟩

/-- the neighbours of a node, as links of the circle -/
theorem Listed.neighbours (h : c.Listed ids) (hi : i ∈ ids) :
    c.nxt i = c.next i ∧ c.prv i = c.prev i ∧ c.next i ≠ c.head ∧ c.prev i ≠ c.tail ∧
      c.next i ∈ ids ++ [c.tail] ∧ c.prev i ∈ c.head :: ids := by
  have hn := nxt_cell (h.ne_tail hi)
  have hp := prv_cell (h.ne_head hi)
  have hmem : i ∈ c.head :: (ids ++ [c.tail]) := List.mem_cons_of_mem _ (List.mem_append_left _ hi)
  have htail : c.tail ∈ c.head :: (ids ++ [c.tail]) := by simp
  have hnextHead : c.next i ≠ c.head := by
    intro heq
    rw [← hn, h.nxt_eq_iff hmem List.mem_cons_self] at heq
    exact h.ne_tail hi (heq.symm.trans (if_pos rfl))
  have hprevTail : c.prev i ≠ c.tail := by
    intro heq
    rw [← hp, ← h.nxt_eq_iff htail hmem] at heq
    exact h.ne_head hi (heq.symm.trans (if_pos rfl))
  refine ⟨hn, hp, hnextHead, hprevTail, ?_, ?_⟩
  · have hring := h.nxt_mem hmem
    rw [hn] at hring
    exact (List.mem_cons.1 hring).resolve_left hnextHead
  · have hring := (Ring.reverse h).nxt_mem (x := i) (by simp [hi])
    rw [hp] at hring
    simp only [List.mem_cons, List.mem_reverse, List.mem_append, List.not_mem_nil, or_false] at hring ⊢
    rcases hring with hring | hring | hring
    · exact Or.inl hring
    · exact Or.inr hring
    · exact absurd hring hprevTail

theorem Listed.last_eq (h : c.Listed (l ++ [i])) : c.prev c.tail = i := by
  have hi : i ∈ l ++ [i] := by simp
  obtain ⟨hn, -, hnextHead, -⟩ := h.neighbours hi
  have hnext := h.ring.nxt_mem_rest
  rw [hn, List.nil_append, List.mem_append, List.mem_singleton, List.mem_singleton] at hnext
  have htail : c.nxt i = c.tail := hn.trans (hnext.resolve_right hnextHead)
  rw [h.nxt_eq_iff (by simp) (by simp), prv_cell h.head_ne_tail.symm] at htail
  exact htail

theorem removeNode_listed (h : c.Listed (l ++ i :: r)) (hlive : c.Alive (l ++ i :: r)) :
    ∃ p n, c.removeNode i = some (c.relink p n) ∧ (c.relink p n).Listed (l ++ r) := by
  have hi : i ∈ l ++ i :: r := by simp
  obtain ⟨hn, hp, hnextHead, hprevTail, hnextMem, hprevMem⟩ := h.neighbours hi
  have hcond : c.live i ∧ c.live (c.prev i) ∧ c.live (c.next i) := by
    refine ⟨hlive i ?_, hlive _ ?_, hlive _ (List.mem_cons_of_mem _ hnextMem)⟩
    · exact List.mem_cons_of_mem _ (List.mem_append_left _ hi)
    · rw [← List.cons_append]
      exact List.mem_append_left _ hprevMem
  have hself : i ≠ c.prev i := by
    have hne := (Ring.reverse h).nxt_ne_self (x := i) (by simp)
    rw [hp] at hne
    exact hne.symm
  set c' := (c.setNext (c.prev i) (c.next i)).setPrev (c.next i) (c.prev i) with hc'
  have hremove : c.removeNode i = some c' := by
    have hsame : (c.setNext (c.prev i) (c.next i)).next i = c.next i := Function.update_of_ne hself ..
    rw [removeNode, if_pos hcond]
    exact congrArg (fun a => some ((c.setNext (c.prev i) (c.next i)).setPrev a (c.prev i))) hsame
  have hnxt : c'.nxt = Function.update c.nxt (c.prv i) (c.nxt i) := by
    rw [hc', nxt_setPrev, nxt_setNext hprevTail, hn, hp]
  have hprv : c'.prv = Function.update c.prv (c.nxt i) (c.prv i) := by
    rw [hc', prv_setPrev, prv_setNext, hn, hp]
    exact hnextHead
  refine ⟨c'.prev, c'.next, hremove, ?_⟩
  have hout : Ring c'.nxt c'.prv c.head (l ++ (r ++ [c.tail])) := by
    refine Ring.unlink h.ring ?_ ?_ ?_ ?_
    · rw [hnxt, Function.update_self]
    · rw [hprv, Function.update_self]
    · intro a _ ha
      rw [hnxt, Function.update_of_ne ha]
    · intro a _ ha
      rw [hprv, Function.update_of_ne ha]
  rw [← List.append_assoc] at hout
  exact hout

theorem mem_of_unlinked {b z : ℕ} (h : a ∈ b :: (l ++ r ++ [z])) : a ∈ b :: (l ++ i :: r ++ [z]) := by
  simp only [List.mem_cons, List.mem_append] at h ⊢
  tauto

theorem moveToHead_listed (h : c.Listed (l ++ i :: r)) (hlive : c.Alive (l ++ i :: r)) :
    ∃ p n, c.moveToHead i = some (c.relink p n) ∧ (c.relink p n).Listed (i :: (l ++ r)) := by
  obtain ⟨p, n, hremove, hlisted⟩ := removeNode_listed h hlive
  have hout := h.ring.middle_notMem
  rw [← List.append_assoc] at hout
  have halive : (c.relink p n).Alive (l ++ r) := fun a ha => hlive a (mem_of_unlinked ha)
  obtain ⟨p', n', hadd, hlisted'⟩ := addNode_listed hlisted halive hout (hlive i (by simp))
  refine ⟨p', n', ?_, hlisted'⟩
  rw [moveToHead, hremove, Option.bind_some, hadd]
  rfl

/-! ## List, table and memory -/

structure Cells (c : Cache) (ids : List ℕ) : Prop where
  listed : c.Listed ids
  alive : c.Alive ids
  bound : ∀ a ∈ c.head :: (ids ++ [c.tail]), a < c.fresh
  size : c.size = ids.length
  slotted : ∀ n ∈ ids, ∃ s, slot (c.key n) = some s
  table : ∀ s n, c.hash s = some n ↔ n ∈ ids ∧ slot (c.key n) = some s

theorem createCache_cells (capacity : ℤ) : (createCache capacity).Cells [] where
  listed := ⟨by simp [createCache], by simp [createCache, nxt], by simp [createCache, prv]⟩
  alive := by simp [Alive, createCache]
  bound := by simp [createCache]
  size := rfl
  slotted := by simp
  table := by simp [createCache]

theorem Cells.keys_eq (h : c.Cells ids) : c.keys = some (ids.map c.key) := by
  have hnext := h.listed.next
  rw [← List.cons_append, List.map_append] at hnext
  have hlinks : (c.head :: ids).map c.next = ids ++ [c.tail] := by
    rw [← (List.append_inj' hnext rfl).1]
    refine List.map_congr_left fun a ha => (nxt_cell ?_).symm
    rcases List.mem_cons.1 ha with rfl | ha
    · exact h.listed.head_ne_tail
    · exact h.listed.ne_tail ha
  have htail : c.tail ∉ ids := fun hmem => h.listed.ne_tail hmem rfl
  rw [keys, Ring.follow_map hlinks htail (by rw [h.size]; simp), Option.map_some]

theorem Cells.setValue (h : c.Cells ids) (v : ℤ) : (c.setValue i v).Cells ids :=
  ⟨h.listed, h.alive, h.bound, h.size, h.slotted, h.table⟩

/-- new links that list the same nodes -/
theorem Cells.relink (h : c.Cells ids) {ids' : List ℕ} (hp : ids'.Perm ids) {p n : ℕ → ℕ}
    (hlisted : (c.relink p n).Listed ids') : (c.relink p n).Cells ids' where
  listed := hlisted
  alive a ha := h.alive a (((hp.append_right _).cons _).mem_iff.1 ha)
  bound a ha := h.bound a (((hp.append_right _).cons _).mem_iff.1 ha)
  size := by
    rw [hp.length_eq]
    exact h.size
  slotted n hn := h.slotted n (hp.mem_iff.1 hn)
  table s n := by
    rw [hp.mem_iff]
    exact h.table s n

theorem moveToHead_cells (h : c.Cells (l ++ i :: r)) :
    ∃ p n, c.moveToHead i = some (c.relink p n) ∧ (c.relink p n).Cells (i :: (l ++ r)) := by
  obtain ⟨p, n, hmove, hlisted⟩ := moveToHead_listed h.listed h.alive
  exact ⟨p, n, hmove, h.relink List.perm_middle.symm hlisted⟩

/-- the slot of a key has the node with that slot, if there is one -/
theorem Cells.hash_cases (h : c.Cells ids) (s : ℕ) :
    (∃ l i r, ids = l ++ i :: r ∧ c.hash s = some i ∧ slot (c.key i) = some s) ∨
      (c.hash s = none ∧ ∀ i ∈ ids, slot (c.key i) ≠ some s) := by
  cases hs : c.hash s with
  | some i =>
    obtain ⟨hi, hslot⟩ := (h.table s i).1 hs
    obtain ⟨l, r, rfl⟩ := List.append_of_mem hi
    exact Or.inl ⟨l, i, r, rfl, rfl, hslot⟩
  | none =>
    refine Or.inr ⟨rfl, ?_⟩
    intro i hi hslot
    have hsome := (h.table s i).2 ⟨hi, hslot⟩
    rw [hs] at hsome
    cases hsome

/-- what holds of the nodes of a list and of a new one -/
theorem forall_entered {P : ℕ → Prop} {a b x : ℕ} {l : List ℕ} (hP : ∀ y ∈ a :: (l ++ [b]), P y) (hx : P x) :
    ∀ y ∈ a :: (x :: l ++ [b]), P y := by
  intro y hy
  rcases List.mem_cons.1 hy with rfl | hy
  · exact hP _ List.mem_cons_self
  · rcases List.mem_cons.1 hy with rfl | hy
    · exact hx
    · exact hP y (List.mem_cons_of_mem _ hy)

/-- the table, with the slot of the new node filled -/
theorem table_entered {hash : ℕ → Option ℕ} {key key' : ℕ → ℤ} {l : List ℕ} {x s : ℕ}
    (htable : ∀ t m, hash t = some m ↔ m ∈ l ∧ slot (key m) = some t) (hkey : ∀ m ∈ l, key' m = key m)
    (hslot : slot (key' x) = some s) (hfree : ∀ m ∈ l, slot (key m) ≠ some s) (t m : ℕ) :
    Function.update hash s (some x) t = some m ↔ m ∈ x :: l ∧ slot (key' m) = some t := by
  rcases eq_or_ne t s with rfl | ht
  · rw [Function.update_self]
    constructor
    · intro heq
      obtain rfl := Option.some.inj heq
      exact ⟨List.mem_cons_self, hslot⟩
    · rintro ⟨hm, hslotm⟩
      rcases List.mem_cons.1 hm with rfl | hm
      · rfl
      · exact absurd (hkey m hm ▸ hslotm) (hfree m hm)
  · rw [Function.update_of_ne ht, htable t m]
    constructor
    · rintro ⟨hm, hslotm⟩
      exact ⟨List.mem_cons_of_mem _ hm, (hkey m hm).symm ▸ hslotm⟩
    · rintro ⟨hm, hslotm⟩
      rcases List.mem_cons.1 hm with rfl | hm
      · rw [hslot] at hslotm
        exact absurd (Option.some.inj hslotm).symm ht
      · exact ⟨hm, hkey m hm ▸ hslotm⟩

/-- a new node goes in at the head -/
theorem addNew_cells (h : c.Cells ids) {key : ℤ} {s : ℕ} (hslot : slot key = some s)
    (hfree : ∀ i ∈ ids, slot (c.key i) ≠ some s) (value : ℤ) :
    ∃ p n, ((c.newNode key value).setHash s (some c.fresh)).addNode c.fresh =
        some (((c.newNode key value).setHash s (some c.fresh)).relink p n) ∧
      Cells ((((c.newNode key value).setHash s (some c.fresh)).relink p n).addSize 1) (c.fresh :: ids) := by
  have hfresh : c.fresh ∉ c.head :: (ids ++ [c.tail]) := fun hmem => Nat.lt_irrefl _ (h.bound _ hmem)
  have hother : ∀ a ∈ c.head :: (ids ++ [c.tail]), a ≠ c.fresh := by
    rintro a ha rfl
    exact hfresh ha
  have hids : ∀ a ∈ ids, a ≠ c.fresh := fun a ha => hother a (List.mem_cons_of_mem _ (List.mem_append_left _ ha))
  set c₁ := (c.newNode key value).setHash s (some c.fresh) with hc₁
  have halive : c₁.Alive ids := by
    intro a ha
    exact (Function.update_of_ne (hother a ha) ..).trans (h.alive a ha)
  have hnode : c₁.live c.fresh = true := Function.update_self ..
  obtain ⟨p, n, hadd, hlisted⟩ := addNode_listed (c := c₁) h.listed halive hfresh hnode
  have hkey : ∀ m ∈ ids, c₁.key m = c.key m := fun m hm => Function.update_of_ne (hids m hm) ..
  have hnew : c₁.key c.fresh = key := Function.update_self ..
  refine ⟨p, n, hadd, hlisted, ?_, ?_, ?_, ?_, ?_⟩
  · exact forall_entered halive hnode
  · have hlt : ∀ b ∈ c.head :: (ids ++ [c.tail]), b < c.fresh + 1 := fun b hb => Nat.lt_succ_of_lt (h.bound b hb)
    exact forall_entered hlt (Nat.lt_succ_self c.fresh)
  · have hsize : c.size + 1 = (ids.length : ℤ) + 1 := congrArg (· + 1) h.size
    exact hsize.trans (by rw [List.length_cons, Nat.cast_succ])
  · intro m hm
    change ∃ t, slot (c₁.key m) = some t
    rcases List.mem_cons.1 hm with rfl | hm
    · exact ⟨s, hnew.symm ▸ hslot⟩
    · rw [hkey m hm]
      exact h.slotted m hm
  · exact table_entered h.table hkey (hnew.symm ▸ hslot) hfree

/-- the last node leaves the list and the table, and is freed -/
theorem evict_cells (h : c.Cells (l ++ [i])) :
    ∃ c', c.evict = some c' ∧ c'.Cells l ∧ c'.key = c.key ∧ c'.value = c.value ∧ c'.capacity = c.capacity := by
  have hi : i ∈ l ++ [i] := by simp
  have hout := h.listed.ring.middle_notMem
  rw [List.nil_append] at hout
  obtain ⟨s, hslot⟩ := h.slotted i hi
  obtain ⟨p, n, hremove, hlisted⟩ := removeNode_listed h.listed h.alive
  rw [List.append_nil] at hlisted
  have hsub : ∀ a ∈ c.head :: (l ++ [c.tail]), a ∈ c.head :: (l ++ [i] ++ [c.tail]) := by
    intro a ha
    exact mem_of_unlinked (r := []) (by rwa [List.append_nil])
  refine ⟨(((c.relink p n).setHash s none).free i).addSize (-1), ?_, ⟨hlisted, ?_, ?_, ?_, ?_, ?_⟩, rfl, rfl, rfl⟩
  · have hkey : slot ((c.relink p n).key i) = some s := hslot
    rw [evict, h.listed.last_eq, hremove, Option.bind_some, hkey, Option.map_some]
  · intro a ha
    refine (Function.update_of_ne ?_ ..).trans (h.alive a (hsub a ha))
    rintro rfl
    exact hout ha
  · intro a ha
    exact h.bound a (hsub a ha)
  · have hsize : c.size + -1 = ((l ++ [i]).length : ℤ) + -1 := congrArg (· + -1) h.size
    refine hsize.trans ?_
    rw [List.length_append, List.length_singleton, Nat.cast_add, Nat.cast_one, add_neg_cancel_right]
  · intro m hm
    exact h.slotted m (List.mem_append_left _ hm)
  · intro t m
    change Function.update c.hash s none t = some m ↔ m ∈ l ∧ slot (c.key m) = some t
    rcases eq_or_ne t s with rfl | ht
    · rw [Function.update_self]
      constructor
      · intro heq
        cases heq
      · rintro ⟨hm, hslotm⟩
        have hback := (h.table t m).2 ⟨List.mem_append_left _ hm, hslotm⟩
        rw [(h.table t i).2 ⟨hi, hslot⟩] at hback
        obtain rfl := Option.some.inj hback
        exact absurd (List.mem_cons_of_mem _ (List.mem_append_left _ hm)) hout
    · rw [Function.update_of_ne ht, h.table t m, List.mem_append, List.mem_singleton]
      constructor
      · rintro ⟨hm | rfl, hslotm⟩
        · exact ⟨hm, hslotm⟩
        · exact absurd (Option.some.inj (hslotm.symm.trans hslot)) ht
      · rintro ⟨hm, hslotm⟩
        exact ⟨Or.inl hm, hslotm⟩

end Cache

end InterviewPrep.LruCache.Simple
