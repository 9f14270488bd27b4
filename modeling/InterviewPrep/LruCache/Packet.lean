/-
The packet cache (lruCache/packet: lru_packet_cache.h, lru_packet_cache.c, hash.c): 64 nodes in an array, an
open-addressing table of 131 slots from keys to node indices, a doubly linked recency list through the nodes and a stack
of free indices.

The model follows the C statement by statement: a pointer write is a field update, the index -1 is the integer -1.
- `hashLookupNode`, `hashInsert`, `hashRemove` are the probing operations of `Core.Probe` on this table;
- `unlink`, `insertAtHead` and `release` are code that the source repeats (`lru_get` and `lru_remove` have the same tail,
  `move_to_head` and `lru_put` the same four statements at the end);
- an operation is `none` if the `while` loop of `hash_remove` does not stop or `free_list` is written past its end.

`nxt`, `prv` read `head` and `tail` as the links of index -1, so the recency list is a `Ring` through -1 (`Listed`). On
the links alone (`toLinks`) the three ways of unlinking and the insertion at the head are those of `Core.Links`, so they
keep it (`unlink_listed`, `unlinkTail_listed`, `insertAtHead_listed`, `moveToHead_listed`); they change nothing but links
(`Frame`).
-/
import InterviewPrep.Core.Links
import InterviewPrep.Core.Probe

namespace InterviewPrep.LruCache.Packet

abbrev capacity : ℕ := 64
abbrev maxPacketSize : ℕ := 1536
abbrev hashSize : ℕ := 131

/-- `lru_node_t`; `data` is the whole array, of which the first `len` bytes are the packet -/
structure Node where
  key : UInt32
  data : List UInt8
  len : ℕ
  valid : Bool
  prev : ℤ
  next : ℤ

/-- `lru_cache_t` -/
structure Cache where
  nodes : ℤ → Node
  hashTable : ℕ → ℤ
  head : ℤ
  tail : ℤ
  freeCount : ℕ
  size : ℤ
  freeList : ℕ → ℤ

namespace Cache

def setNode (c : Cache) (i : ℤ) (n : Node) : Cache := { c with nodes := Function.update c.nodes i n }

def setPrev (c : Cache) (i p : ℤ) : Cache := c.setNode i { c.nodes i with prev := p }

def setNext (c : Cache) (i n : ℤ) : Cache := c.setNode i { c.nodes i with next := n }

def setHead (c : Cache) (i : ℤ) : Cache := { c with head := i }

def setTail (c : Cache) (i : ℤ) : Cache := { c with tail := i }

def setTable (c : Cache) (tbl : ℕ → ℤ) : Cache := { c with hashTable := tbl }

def addSize (c : Cache) (d : ℤ) : Cache := { c with size := c.size + d }

@[simp] theorem nodes_setTable (c : Cache) (tbl : ℕ → ℤ) : (c.setTable tbl).nodes = c.nodes := rfl

@[simp] theorem nodes_addSize (c : Cache) (d : ℤ) : (c.addSize d).nodes = c.nodes := rfl

/-! ## hash.c -/

def hashKey (k : UInt32) : ℕ :=
  let x := k
  let x := ((x >>> 16) ^^^ x) * 0x45d9f3b
  let x := ((x >>> 16) ^^^ x) * 0x45d9f3b
  let x := (x >>> 16) ^^^ x
  (x % 131).toNat

/-- the test of both probing loops on an occupied slot -/
def hit (c : Cache) (key : UInt32) (i : ℤ) : Bool := (c.nodes i).valid && (c.nodes i).key == key

def home (c : Cache) (i : ℤ) : ℕ := hashKey (c.nodes i).key

def hashLookupNode (c : Cache) (key : UInt32) : ℤ := Probe.lookup hashSize (-1) c.hashTable (c.hit key) (hashKey key)

def hashInsert (c : Cache) (key : UInt32) (nodeIndex : ℤ) : Cache × Bool :=
  let (tbl, ok) := Probe.insert hashSize (-1) c.hashTable (hashKey key) nodeIndex
  (c.setTable tbl, ok)

def hashRemove (c : Cache) (key : UInt32) : Option (Cache × Bool) :=
  (Probe.remove hashSize (-1) c.home c.hashTable (c.hit key) (hashKey key)).map fun (tbl, ok) =>
    (c.setTable tbl, ok)

/-! ## lru_packet_cache.c -/

/-- `lru_init`: everything zero, then empty table and lists and all nodes on the free stack -/
def lruInit : Cache where
  nodes _ := ⟨0, List.replicate maxPacketSize 0, 0, false, -1, -1⟩
  hashTable _ := -1
  head := -1
  tail := -1
  freeCount := capacity
  size := 0
  freeList i := i

def memcpy (dst src : List UInt8) (n : ℕ) : List UInt8 := src.take n ++ dst.drop n

def stackFree (c : Cache) (idx : ℤ) : Cache :=
  { c with freeList := Function.update c.freeList c.freeCount idx, freeCount := c.freeCount + 1 }

/-- `free_list[free_count++] = idx`, with the bound of the array -/
def pushFree (c : Cache) (idx : ℤ) : Option Cache := if c.freeCount < capacity then some (c.stackFree idx) else none

def popFree (c : Cache) : Cache := { c with freeCount := c.freeCount - 1 }

/-- neighbours `p` and `n` of an unlinked node point at each other -/
def splice (c : Cache) (p n : ℤ) : Cache :=
  let c := if p ≠ -1 then c.setNext p n else c
  if n ≠ -1 then c.setPrev n p else c

/-- unlinking in `lru_get` and `lru_remove` -/
def unlink (c : Cache) (idx : ℤ) : Cache :=
  let p := (c.nodes idx).prev
  let n := (c.nodes idx).next
  let c := c.splice p n
  let c := if idx = c.head then c.setHead n else c
  if idx = c.tail then c.setTail p else c

def insertAtHead (c : Cache) (idx : ℤ) : Cache :=
  let c := c.setNext idx c.head
  let c := if c.head ≠ -1 then c.setPrev c.head idx else c
  let c := c.setHead idx
  if c.tail = -1 then c.setTail idx else c

def moveToHead (c : Cache) (idx : ℤ) : Cache :=
  if idx = c.head then c
  else
    let p := (c.nodes idx).prev
    let n := (c.nodes idx).next
    let c := c.splice p n
    let c := if idx = c.tail then c.setTail p else c
    (c.setPrev idx (-1)).insertAtHead idx

def invalidate (c : Cache) (idx : ℤ) : Cache :=
  c.setNode idx { c.nodes idx with valid := false, prev := -1, next := -1 }

/-- unlinking in `allocate_node` -/
def unlinkTail (c : Cache) (evict : ℤ) : Cache :=
  let p := (c.nodes evict).prev
  let c := if p ≠ -1 then c.setNext p (-1) else c
  let c := c.setTail p
  if c.tail = -1 then c.setHead (-1) else c

def allocateNode (c : Cache) : Option (Cache × ℤ) :=
  if 0 < c.freeCount then some (c.popFree, c.freeList (c.freeCount - 1))
  else
    let evict := c.tail
    if evict = -1 then some (c, -1)
    else
      (c.hashRemove (c.nodes evict).key).map fun (c, _) =>
        (((c.unlinkTail evict).invalidate evict).addSize (-1), evict)

/-- the part of `lru_put` after `allocate_node` -/
def putNew (c : Cache) (idx : ℤ) (key : UInt32) (data : List UInt8) (len : ℕ) : Option (Cache × Bool) :=
  let c := c.setNode idx ⟨key, memcpy (c.nodes idx).data data len, len, true, -1, -1⟩
  let (c, ok) := c.hashInsert key idx
  if !ok then ((c.setNode idx { c.nodes idx with valid := false }).pushFree idx).map fun c => (c, false)
  else
    some ((c.insertAtHead idx).addSize 1, true)

def lruPut (c : Cache) (key : UInt32) (data : List UInt8) (len : ℕ) : Option (Cache × Bool) :=
  if maxPacketSize < len then some (c, false)
  else
    let nodeIdx := c.hashLookupNode key
    if nodeIdx ≠ -1 then
      let n := c.nodes nodeIdx
      some ((c.setNode nodeIdx { n with data := memcpy n.data data len, len := len }).moveToHead nodeIdx, true)
    else
      c.allocateNode.bind fun (c, idx) => if idx < 0 then some (c, false) else c.putNew idx key data len

/-- what a call returns and leaves in the caller's buffer and length, `none` for a NULL pointer -/
structure Reply where
  ret : Bool
  out : Option (List UInt8)
  outLen : Option ℕ
  deriving DecidableEq

/-- copying out in `lru_get` and `lru_peek`; `none`: the buffer is too small -/
def copyOut (n : Node) (out : Option (List UInt8)) (outLen : Option ℕ) :
    Option (Option (List UInt8) × Option ℕ) :=
  match out, outLen with
  | some buf, some room => if room < n.len then none else some (some (memcpy buf n.data n.len), some n.len)
  | none, some _ => some (none, some n.len)
  | out, none => some (out, none)

/-- the tail of `lru_get` and `lru_remove`: out of the table and the list, onto the free stack -/
def release (c : Cache) (key : UInt32) (idx : ℤ) : Option Cache :=
  (c.hashRemove key).bind fun (c, _) =>
    (((c.unlink idx).invalidate idx).pushFree idx).map fun c => c.addSize (-1)

def lruGet (c : Cache) (key : UInt32) (out : Option (List UInt8)) (outLen : Option ℕ) : Option (Cache × Reply) :=
  let idx := c.hashLookupNode key
  if idx = -1 then some (c, ⟨false, out, outLen⟩)
  else
    match copyOut (c.nodes idx) out outLen with
    | none => some (c, ⟨false, out, outLen⟩)
    | some (out, outLen) => (c.release key idx).map fun c => (c, ⟨true, out, outLen⟩)

def lruPeek (c : Cache) (key : UInt32) (out : Option (List UInt8)) (outLen : Option ℕ) : Cache × Reply :=
  let idx := c.hashLookupNode key
  if idx = -1 then (c, ⟨false, out, outLen⟩)
  else
    match copyOut (c.nodes idx) out outLen with
    | none => (c, ⟨false, out, outLen⟩)
    | some (out, outLen) => (c.moveToHead idx, ⟨true, out, outLen⟩)

def lruRemove (c : Cache) (key : UInt32) : Option (Cache × Bool) :=
  let idx := c.hashLookupNode key
  if idx = -1 then some (c, false) else (c.release key idx).map fun c => (c, true)

/-- the nodes `dump_cache_state` visits, from `head` by `next` -/
def forward (c : Cache) : Option (List ℤ) := Ring.follow (fun i => (c.nodes i).next) (-1) (capacity + 1) c.head

/-- from `tail` by `prev` -/
def backward (c : Cache) : Option (List ℤ) := Ring.follow (fun i => (c.nodes i).prev) (-1) (capacity + 1) c.tail

/-! ## Links -/

def nxt (c : Cache) (i : ℤ) : ℤ := if i = -1 then c.head else (c.nodes i).next

def prv (c : Cache) (i : ℤ) : ℤ := if i = -1 then c.tail else (c.nodes i).prev

/-- the links of the nodes, `head` and `tail` -/
def toLinks (c : Cache) : Links (-1 : ℤ) where
  next i := (c.nodes i).next
  prev i := (c.nodes i).prev
  head := c.head
  tail := c.tail

variable {c : Cache} {i j v : ℤ}

theorem head_eq (c : Cache) : c.head = c.toLinks.head := rfl

theorem tail_eq (c : Cache) : c.tail = c.toLinks.tail := rfl

theorem toLinks_setNext : (c.setNext i v).toLinks = c.toLinks.setNext i v := by
  have hnext : (c.setNext i v).toLinks.next = Function.update c.toLinks.next i v := by
    funext j
    rcases eq_or_ne j i with rfl | hj
    · simp [toLinks, setNext, setNode]
    · simp [toLinks, setNext, setNode, hj]
  have hprev : (c.setNext i v).toLinks.prev = c.toLinks.prev := by
    funext j
    rcases eq_or_ne j i with rfl | hj
    · simp [toLinks, setNext, setNode]
    · simp [toLinks, setNext, setNode, hj]
  exact congrArg₂ (fun n p => (⟨n, p, c.head, c.tail⟩ : Links (-1 : ℤ))) hnext hprev

theorem toLinks_setPrev : (c.setPrev i v).toLinks = c.toLinks.setPrev i v := by
  have hnext : (c.setPrev i v).toLinks.next = c.toLinks.next := by
    funext j
    rcases eq_or_ne j i with rfl | hj
    · simp [toLinks, setPrev, setNode]
    · simp [toLinks, setPrev, setNode, hj]
  have hprev : (c.setPrev i v).toLinks.prev = Function.update c.toLinks.prev i v := by
    funext j
    rcases eq_or_ne j i with rfl | hj
    · simp [toLinks, setPrev, setNode]
    · simp [toLinks, setPrev, setNode, hj]
  exact congrArg₂ (fun n p => (⟨n, p, c.head, c.tail⟩ : Links (-1 : ℤ))) hnext hprev

theorem toLinks_setHead : (c.setHead v).toLinks = c.toLinks.setHead v := rfl

theorem toLinks_setTail : (c.setTail v).toLinks = c.toLinks.setTail v := rfl

theorem toLinks_ite {p : Prop} [Decidable p] {c₁ c₂ : Cache} {l₁ l₂ : Links (-1 : ℤ)} (h₁ : c₁.toLinks = l₁)
    (h₂ : c₂.toLinks = l₂) : (if p then c₁ else c₂).toLinks = if p then l₁ else l₂ := by
  rw [apply_ite toLinks, h₁, h₂]

theorem toLinks_splice (p n : ℤ) : (c.splice p n).toLinks = c.toLinks.splice p n := by
  have hfirst : (if p ≠ -1 then c.setNext p n else c).toLinks = if p ≠ -1 then c.toLinks.setNext p n else c.toLinks :=
    toLinks_ite toLinks_setNext rfl
  refine toLinks_ite ?_ hfirst
  rw [toLinks_setPrev, hfirst]

theorem toLinks_trimHead (n : ℤ) : (if i = c.head then c.setHead n else c).toLinks =
    if i = c.toLinks.head then c.toLinks.setHead n else c.toLinks := toLinks_ite rfl rfl

theorem toLinks_trimTail (p : ℤ) : (if i = c.tail then c.setTail p else c).toLinks =
    if i = c.toLinks.tail then c.toLinks.setTail p else c.toLinks := toLinks_ite rfl rfl

theorem toLinks_unlink : (c.unlink i).toLinks = c.toLinks.unlink i := by
  unfold unlink
  dsimp only
  rw [toLinks_trimTail, toLinks_trimHead, toLinks_splice]
  rfl

theorem toLinks_unlinkTail : (c.unlinkTail i).toLinks = c.toLinks.unlinkTail i := by
  have hfirst : (if (c.nodes i).prev ≠ -1 then c.setNext (c.nodes i).prev (-1) else c).toLinks =
      if c.toLinks.prev i ≠ -1 then c.toLinks.setNext (c.toLinks.prev i) (-1) else c.toLinks :=
    toLinks_ite toLinks_setNext rfl
  rw [Links.unlinkTail, ← hfirst]
  exact toLinks_ite rfl rfl

theorem toLinks_insertAtHead : (c.insertAtHead i).toLinks = c.toLinks.insertAtHead i := by
  simp only [insertAtHead, Links.insertAtHead, apply_ite toLinks, head_eq, tail_eq, toLinks_setNext, toLinks_setPrev,
    toLinks_setHead, toLinks_setTail]

theorem toLinks_moveToHead : (c.moveToHead i).toLinks = c.toLinks.moveToHead i := by
  refine toLinks_ite rfl ?_
  rw [toLinks_insertAtHead, toLinks_setPrev, toLinks_trimTail, toLinks_splice]
  rfl

/-! ## What the link updates leave alone -/

/-- everything of a node but its links -/
def core (c : Cache) (i : ℤ) : UInt32 × List UInt8 × ℕ × Bool :=
  ((c.nodes i).key, (c.nodes i).data, (c.nodes i).len, (c.nodes i).valid)

/-- only links differ -/
structure Frame (c c' : Cache) : Prop where
  core : ∀ i, c'.core i = c.core i
  table : c'.hashTable = c.hashTable
  freeCount : c'.freeCount = c.freeCount
  freeList : c'.freeList = c.freeList
  size : c'.size = c.size

theorem Frame.refl (c : Cache) : Frame c c := ⟨fun _ => rfl, rfl, rfl, rfl, rfl⟩

theorem Frame.trans {c₁ c₂ c₃ : Cache} (h : Frame c₁ c₂) (h' : Frame c₂ c₃) : Frame c₁ c₃ :=
  ⟨fun i => (h'.core i).trans (h.core i), h'.table.trans h.table, h'.freeCount.trans h.freeCount,
    h'.freeList.trans h.freeList, h'.size.trans h.size⟩

theorem setNode_core (n : Node) (hn : (n.key, n.data, n.len, n.valid) = c.core i) :
    (c.setNode i n).core j = c.core j := by
  by_cases hj : j = i
  · rw [hj, ← hn]
    simp [core, setNode]
  · simp [core, setNode, hj]

theorem frame_setNext (c : Cache) (i v : ℤ) : Frame c (c.setNext i v) :=
  ⟨fun _ => setNode_core _ rfl, rfl, rfl, rfl, rfl⟩

theorem frame_setPrev (c : Cache) (i v : ℤ) : Frame c (c.setPrev i v) :=
  ⟨fun _ => setNode_core _ rfl, rfl, rfl, rfl, rfl⟩

theorem frame_setHead (c : Cache) (v : ℤ) : Frame c (c.setHead v) := ⟨fun _ => rfl, rfl, rfl, rfl, rfl⟩

theorem frame_setTail (c : Cache) (v : ℤ) : Frame c (c.setTail v) := ⟨fun _ => rfl, rfl, rfl, rfl, rfl⟩

theorem Frame.ite {p : Prop} [Decidable p] {c₁ c₂ : Cache} (h₁ : Frame c c₁) (h₂ : Frame c c₂) :
    Frame c (if p then c₁ else c₂) := by
  split_ifs
  · exact h₁
  · exact h₂

theorem splice_frame (c : Cache) (p n : ℤ) : Frame c (c.splice p n) := by
  have hfirst : Frame c (if p ≠ -1 then c.setNext p n else c) := .ite (frame_setNext ..) (.refl c)
  exact .ite (hfirst.trans (frame_setPrev ..)) hfirst

theorem unlink_frame (c : Cache) (idx : ℤ) : Frame c (c.unlink idx) := by
  have hsplice := splice_frame c (c.nodes idx).prev (c.nodes idx).next
  have hhead := Frame.ite (p := idx = (c.splice (c.nodes idx).prev (c.nodes idx).next).head)
    (hsplice.trans (frame_setHead _ (c.nodes idx).next)) hsplice
  exact .ite (hhead.trans (frame_setTail ..)) hhead

theorem insertAtHead_frame (c : Cache) (idx : ℤ) : Frame c (c.insertAtHead idx) := by
  have hnext := frame_setNext c idx c.head
  have hprev := Frame.ite (p := (c.setNext idx c.head).head ≠ -1)
    (hnext.trans (frame_setPrev _ (c.setNext idx c.head).head idx)) hnext
  have hhead := hprev.trans (frame_setHead _ idx)
  exact .ite (hhead.trans (frame_setTail ..)) hhead

theorem moveToHead_frame (c : Cache) (idx : ℤ) : Frame c (c.moveToHead idx) := by
  have hsplice := splice_frame c (c.nodes idx).prev (c.nodes idx).next
  have htail := Frame.ite (p := idx = (c.splice (c.nodes idx).prev (c.nodes idx).next).tail)
    (hsplice.trans (frame_setTail _ (c.nodes idx).prev)) hsplice
  exact .ite (.refl c) ((htail.trans (frame_setPrev ..)).trans (insertAtHead_frame ..))

theorem unlinkTail_frame (c : Cache) (idx : ℤ) : Frame c (c.unlinkTail idx) := by
  have hnext := Frame.ite (p := (c.nodes idx).prev ≠ -1) (frame_setNext c (c.nodes idx).prev (-1)) (.refl c)
  have htail := hnext.trans (frame_setTail _ (c.nodes idx).prev)
  exact .ite (htail.trans (frame_setHead ..)) htail

/-! ## The recency list as a ring -/

/-- the recency list, from the most recent node -/
def Listed (c : Cache) (ids : List ℤ) : Prop := Ring c.nxt c.prv (-1) ids

variable {ids l r : List ℤ}

/-- the same list, for the operations of `Core.Links` -/
theorem listed_iff : c.Listed ids ↔ c.toLinks.Listed ids := Iff.rfl

theorem Listed.ne_null (h : c.Listed ids) (hi : i ∈ ids) : i ≠ -1 := Links.Listed.ne_null (listed_iff.1 h) hi

theorem unlink_listed (h : c.Listed (l ++ i :: r)) : (c.unlink i).Listed (l ++ r) := by
  rw [listed_iff, toLinks_unlink]
  exact Links.unlink_listed h

theorem unlinkTail_listed (h : c.Listed (l ++ i :: r)) (hi : i = c.tail) : (c.unlinkTail i).Listed (l ++ r) := by
  rw [listed_iff, toLinks_unlinkTail]
  exact Links.unlinkTail_listed h hi

/-- the node's own `prev` is reset before the call -/
theorem insertAtHead_listed (h : c.Listed ids) (hi : i ∉ -1 :: ids) (hprev : (c.nodes i).prev = -1) :
    (c.insertAtHead i).Listed (i :: ids) := by
  rw [listed_iff, toLinks_insertAtHead]
  exact Links.insertAtHead_listed h hi hprev

theorem moveToHead_listed (h : c.Listed (l ++ i :: r)) : (c.moveToHead i).Listed (i :: (l ++ r)) := by
  rw [listed_iff, toLinks_moveToHead]
  exact Links.moveToHead_listed h

/-- a node that is not listed, or keeps its links, can be written -/
theorem Listed.setNode (h : c.Listed ids) {n : Node}
    (hi : i ∈ ids → n.next = (c.nodes i).next ∧ n.prev = (c.nodes i).prev) : (c.setNode i n).Listed ids := by
  rw [listed_iff]
  refine Links.Listed.congr (listed_iff.1 h) rfl rfl ?_ ?_
  · intro a ha
    rcases eq_or_ne a i with rfl | hne
    · exact (congrArg Node.next (Function.update_self ..)).trans (hi ha).1
    · exact congrArg Node.next (Function.update_of_ne hne ..)
  · intro a ha
    rcases eq_or_ne a i with rfl | hne
    · exact (congrArg Node.prev (Function.update_self ..)).trans (hi ha).2
    · exact congrArg Node.prev (Function.update_of_ne hne ..)

theorem forward_eq (h : c.Listed ids) (hlen : ids.length ≤ capacity) : c.forward = some ids :=
  Links.Listed.follow (listed_iff.1 h) (Nat.lt_succ_of_le hlen)

theorem backward_eq (h : c.Listed ids) (hlen : ids.length ≤ capacity) : c.backward = some ids.reverse := by
  have hprev : ∀ x, x ≠ -1 → (c.nodes x).prev = c.prv x := fun x hx => (Links.prv_cell (l := c.toLinks) hx).symm
  rw [backward, Ring.follow_congr hprev]
  exact h.follow_prev (Nat.lt_succ_of_le hlen)

end Cache

end InterviewPrep.LruCache.Packet
