/-
The hashed cache (lruCache/simple/lruCacheWithHashing.c): 16 nodes in an array, a recency list and a free list threaded
through the same `next` fields, and an open-addressing table of 32 slots from keys to node indices.

The array of nodes is kept field by field: `key`, `value`, `used`, and the `Links` with index -1 as null cell. The list
operations are those of `Core.Links`, the table operations those of `Core.Probe`; `fill` is the part of `lru_put` that
both its branches run into. A call is `none` if the `while` loop of `ht_remove` does not stop.

`Inv c ids out free`: `ids` is the recency list, `free` the free list and `out` the node in flight (evicted or allocated,
not yet in the list). Every node is in exactly one of the three, and the table holds the listed ones.
- `moveToHead_inv`, `evict_inv`, `alloc_inv`, `fill_inv`: one lemma for each step of a call;
- `lruGet_refines`, `lruPut_refines`: one call, against the reference `Lru 16`;
- `lists_refine_reference`: every run from `lru_init`.
-/
import InterviewPrep.Core.Links
import InterviewPrep.Core.Machine
import InterviewPrep.Core.Probe
import InterviewPrep.Core.Recency

namespace InterviewPrep.LruCache.Hashed

abbrev capacity : ℕ := 16
abbrev htSize : ℕ := 32

/-- `lru_cache_t`, with `nodes` field by field -/
structure Cache where
  key : ℤ → UInt32
  value : ℤ → UInt32
  used : ℤ → Bool
  links : Links (-1 : ℤ)
  freeHead : ℤ
  size : ℤ
  ht : ℕ → ℤ

namespace Cache

def htMask : UInt32 := 31

def hash32 (x : UInt32) : UInt32 :=
  let x := x ^^^ (x >>> 16)
  let x := x * 0x7feb352d
  let x := x ^^^ (x >>> 15)
  let x := x * 0x846ca68b
  x ^^^ (x >>> 16)

/-- `hash32(key) & ht_mask()` -/
def slotOf (key : UInt32) : ℕ := (hash32 key &&& htMask).toNat

/-- the test of the probing loops on an occupied slot -/
def hit (c : Cache) (key : UInt32) (i : ℤ) : Bool := c.used i && c.key i == key

def home (c : Cache) (i : ℤ) : ℕ := slotOf (c.key i)

def lruInit : Cache where
  key _ := 0
  value _ := 0
  used _ := false
  links :=
    { next := fun i => if i = capacity - 1 then -1 else i + 1
      prev := fun i => if i = 0 then -1 else i - 1
      head := -1
      tail := -1 }
  freeHead := 0
  size := 0
  ht _ := -1

def setTable (c : Cache) (tbl : ℕ → ℤ) : Cache := { c with ht := tbl }

def setValue (c : Cache) (i : ℤ) (v : UInt32) : Cache := { c with value := Function.update c.value i v }

def setLinks (c : Cache) (l : Links (-1 : ℤ)) : Cache := { c with links := l }

def addSize (c : Cache) (d : ℤ) : Cache := { c with size := c.size + d }

def allocNode (c : Cache) : Cache × ℤ :=
  if c.freeHead = -1 then (c, -1)
  else
    let i := c.freeHead
    ({ c with
        freeHead := c.links.next i
        links := (c.links.setNext i (-1)).setPrev i (-1)
        used := Function.update c.used i true }, i)

def freeNode (c : Cache) (i : ℤ) : Cache :=
  { c with
    used := Function.update c.used i false
    links := (c.links.setNext i c.freeHead).setPrev i (-1)
    freeHead := i }

def htFind (c : Cache) (key : UInt32) : ℤ := Probe.lookup htSize (-1) c.ht (c.hit key) (slotOf key)

def htInsert (c : Cache) (key : UInt32) (nodeIdx : ℤ) : Cache × Bool :=
  let (tbl, ok) := Probe.insert htSize (-1) c.ht (slotOf key) nodeIdx
  (c.setTable tbl, ok)

def htRemove (c : Cache) (key : UInt32) : Option Cache :=
  (Probe.remove htSize (-1) c.home c.ht (c.hit key) (slotOf key)).map fun (tbl, _) => c.setTable tbl

def moveToHead (c : Cache) (i : ℤ) : Cache := c.setLinks (c.links.moveToHead i)

def removeTail (c : Cache) : Cache × ℤ :=
  let t := c.links.tail
  if t = -1 then (c, -1) else (c.setLinks c.links.removeTail, t)

/-- what a call returns and leaves in the caller's variable, `none` for a NULL pointer -/
structure Reply where
  ret : Bool
  value : Option UInt32
  deriving DecidableEq

def lruGet (c : Cache) (key : UInt32) (value : Option UInt32) : Cache × Reply :=
  let idx := c.htFind key
  if idx = -1 then (c, ⟨false, value⟩)
  else
    let c := c.moveToHead idx
    (c, ⟨true, value.map fun _ => c.value idx⟩)

/-- key, value and null links of a new node -/
def write (c : Cache) (idx : ℤ) (key value : UInt32) : Cache :=
  { c with
    key := Function.update c.key idx key
    value := Function.update c.value idx value
    links := (c.links.setNext idx (-1)).setPrev idx (-1) }

/-- `lru_put` once it has a node -/
def fill (c : Cache) (idx : ℤ) (key value : UInt32) : Cache × Bool :=
  let (c, ok) := (c.write idx key value).htInsert key idx
  if !ok then ((c.freeNode idx).addSize (-1), false)
  else (c.setLinks (c.links.pushFront idx), true)

def lruPut (c : Cache) (key value : UInt32) : Option (Cache × Bool) :=
  let idx := c.htFind key
  if idx ≠ -1 then some ((c.setValue idx value).moveToHead idx, true)
  else if capacity ≤ c.size then
    let (c, ev) := c.removeTail
    if ev = -1 then some (c, false)
    else (c.htRemove (c.key ev)).map fun c => c.fill ev key value
  else
    let (c, idx) := c.allocNode
    if idx = -1 then some (c, false)
    else some ((c.addSize 1).fill idx key value)

/-- the nodes `lru_dump` visits, from `head` by `next` -/
def order (c : Cache) : Option (List ℤ) := Ring.follow c.links.next (-1) (capacity + 1) c.links.head

/-- the free nodes, from `free_head` by `next` -/
def freeOrder (c : Cache) : Option (List ℤ) := Ring.follow c.links.next (-1) (capacity + 1) c.freeHead

def pair (c : Cache) (i : ℤ) : UInt32 × UInt32 := (c.key i, c.value i)

/-! ## The invariant -/

/-- the node indices -/
def allNodes : List ℤ := (List.range capacity).map (↑)

structure Inv (c : Cache) (ids out free : List ℤ) : Prop where
  listed : c.links.Listed ids
  chain : Chain c.links.next (-1) c.freeHead free
  partition : (ids ++ out ++ free).Perm allNodes
  used : ∀ i ∈ ids ++ out, c.used i = true
  keys : (ids.map c.key).Nodup
  size : c.size = ids.length + out.length
  table : Probe.Holds htSize (-1) c.ht c.home {i | i ∈ ids}

variable {c : Cache} {i j : ℤ} {ids l r out free : List ℤ}

theorem lruInit_inv : lruInit.Inv [] [] allNodes where
  listed := Links.listed_empty rfl rfl
  chain := by simp [allNodes, List.range_succ, Chain, lruInit]
  partition := List.Perm.refl _
  used := by simp
  keys := List.nodup_nil
  size := rfl
  table := ⟨⟨by simp [lruInit], by simp, by simp [lruInit], by simp⟩, by simp [lruInit]⟩

namespace Inv

theorem nodup (h : c.Inv ids out free) : (ids ++ out ++ free).Nodup :=
  h.partition.nodup_iff.2 (List.nodup_range.map Nat.cast_injective)

theorem count (h : c.Inv ids out free) : ids.length + out.length + free.length = capacity := by
  simpa [allNodes, Nat.add_assoc] using h.partition.length_eq

theorem ne_null (h : c.Inv ids out free) (hi : i ∈ ids ++ out ++ free) : i ≠ -1 := by
  obtain ⟨n, -, rfl⟩ := List.mem_map.1 (h.partition.subset hi)
  omega

/-- the listed nodes, the node in flight and the free nodes are different nodes -/
theorem apart (h : c.Inv ids out free) (hi : i ∈ out ++ free) : i ∉ -1 :: ids := by
  have hnd := h.nodup
  rw [List.append_assoc] at hnd
  have hmem : i ∈ ids ++ out ++ free := by
    rw [List.append_assoc]
    exact List.mem_append_right ids hi
  refine List.not_mem_cons_of_ne_of_not_mem (h.ne_null hmem) ?_
  intro hlisted
  exact (List.nodup_append.1 hnd).2.2 i hlisted i hi rfl

theorem exists_empty (h : c.Inv ids out free) : ∃ s < htSize, c.ht s = -1 := by
  have hcount := h.count
  refine h.table.exists_empty (fun j (hj : j ∈ ids) => hj) ?_
  simp only [capacity, htSize] at hcount ⊢
  omega

theorem hit_iff (h : c.Inv ids out free) {key : UInt32} (hi : i ∈ ids) : c.hit key i = true ↔ c.key i = key := by
  simp [hit, h.used i (List.mem_append_left out hi)]

theorem htFind_listed (h : c.Inv ids out free) (hi : i ∈ ids) : c.htFind (c.key i) = i :=
  Probe.lookup_key h.table h.keys (fun _ hj => h.hit_iff hj) hi

theorem htFind_absent (h : c.Inv ids out free) {key : UInt32} (hkey : ∀ i ∈ ids, c.key i ≠ key) :
    c.htFind key = -1 :=
  Probe.lookup_noKey h.table (fun _ hj => h.hit_iff hj) hkey (slotOf key)

/-- new links that list the same nodes and leave the free list alone -/
theorem relink (h : c.Inv ids out free) {ids' : List ℤ} (hp : ids'.Perm ids) {links : Links (-1 : ℤ)}
    (hlisted : links.Listed ids') (hnext : ∀ a ∈ free, links.next a = c.links.next a) :
    (c.setLinks links).Inv ids' out free where
  listed := hlisted
  chain := h.chain.congr hnext
  partition := ((hp.append_right out).append_right free).trans h.partition
  used i hi := h.used i ((hp.append_right out).mem_iff.1 hi)
  keys := (hp.map _).nodup_iff.2 h.keys
  size := by
    rw [hp.length_eq]
    exact h.size
  table := by
    simp only [hp.mem_iff]
    exact h.table

end Inv

/-! ## The steps of a call -/

theorem moveToHead_inv (h : c.Inv (l ++ i :: r) out free) : (c.moveToHead i).Inv (i :: (l ++ r)) out free := by
  refine h.relink List.perm_middle.symm (Links.moveToHead_listed h.listed) ?_
  intro a ha
  exact Links.moveToHead_next h.listed (by simp) (h.apart (List.mem_append_right out ha))

theorem setValue_inv (h : c.Inv ids out free) (i : ℤ) (v : UInt32) : (c.setValue i v).Inv ids out free :=
  ⟨h.listed, h.chain, h.partition, h.used, h.keys, h.size, h.table⟩

/-- the node of the least recent pair leaves the list, then the table -/
theorem evict_inv (h : c.Inv (l ++ [i]) [] free) :
    ∃ t, (c.setLinks c.links.removeTail).htRemove (c.key i) = some ((c.setLinks c.links.removeTail).setTable t) ∧
      ((c.setLinks c.links.removeTail).setTable t).Inv l [i] free := by
  obtain ⟨t, hremove, hholds⟩ := Probe.remove_key h.table h.exists_empty h.keys fun _ hj => h.hit_iff hj
  rw [List.append_nil] at hholds
  refine ⟨t, ?_, ?_⟩
  · have hbase : (Probe.remove htSize (-1) c.home c.ht (c.hit (c.key i)) (slotOf (c.key i))) = some (t, true) := hremove
    exact congrArg (Option.map _) hbase
  · have hpart := h.partition
    have hused := h.used
    rw [List.append_nil] at hpart hused
    refine ⟨Links.removeTail_listed h.listed, h.chain.congr ?_, hpart, hused, ?_, ?_, hholds⟩
    · intro a ha
      exact Links.removeTail_next h.listed (h.apart ha)
    · exact ((List.sublist_append_left l [i]).map _).nodup h.keys
    · refine h.size.trans ?_
      rw [List.length_append, List.length_nil, Nat.cast_add, Int.natCast_zero, Int.add_zero]

/-- the first free node is handed out -/
theorem alloc_inv (h : c.Inv ids [] (i :: free)) :
    c.allocNode.2 = i ∧ c.allocNode.1.pair = c.pair ∧ (c.allocNode.1.addSize 1).Inv ids [i] free := by
  obtain ⟨hhead, hnull, hchain⟩ := h.chain
  have hi := h.apart (i := i) (by simp)
  have hother : ∀ j ∈ ids, j ≠ i := by
    rintro j hj rfl
    exact hi (List.mem_cons_of_mem _ hj)
  have hnd := (List.nodup_append.1 h.nodup).2.1
  rw [allocNode, if_neg (hhead ▸ hnull), hhead]
  refine ⟨rfl, rfl, ?_, ?_, ?_, ?_, h.keys, ?_, h.table⟩
  · refine h.listed.congr rfl rfl ?_ ?_
    · intro a ha
      exact Function.update_of_ne (hother a ha) ..
    · intro a ha
      exact Function.update_of_ne (hother a ha) ..
  · refine hchain.congr ?_
    intro a ha
    refine Function.update_of_ne ?_ ..
    rintro rfl
    exact (List.nodup_cons.1 hnd).1 ha
  · have hpart := h.partition
    rw [List.append_nil] at hpart
    rw [List.append_assoc]
    exact hpart
  · intro j hj
    rcases List.mem_append.1 hj with hj | hj
    · exact (Function.update_of_ne (hother j hj) ..).trans (h.used j (List.mem_append_left [] hj))
    · rw [List.mem_singleton.1 hj]
      exact Function.update_self ..
  · have hsize := h.size
    rw [List.length_nil, Int.natCast_zero, Int.add_zero] at hsize
    exact congrArg (· + 1) hsize

/-- the insertion into the table does not fail -/
theorem fill_inv (h : c.Inv ids [i] free) {key : UInt32} (value : UInt32) (hkey : ∀ j ∈ ids, c.key j ≠ key) :
    ∃ c', c.fill i key value = (c', true) ∧ c'.Inv (i :: ids) [] free ∧ c'.pair i = (key, value) ∧
      ∀ j ∈ ids, c'.pair j = c.pair j := by
  have hi := h.apart (i := i) (by simp)
  obtain ⟨hnull, hfresh⟩ := List.ne_and_not_mem_of_not_mem_cons hi
  have hother : ∀ j ∈ ids, j ≠ i := by
    rintro j hj rfl
    exact hfresh hj
  have hkeys : ∀ j ∈ ids, (c.write i key value).key j = c.key j := fun j hj => Function.update_of_ne (hother j hj) ..
  have hnew : (c.write i key value).key i = key := Function.update_self ..
  have hlisted : (c.write i key value).links.Listed ids := by
    refine h.listed.congr rfl rfl ?_ ?_
    · intro a ha
      exact Function.update_of_ne (hother a ha) ..
    · intro a ha
      exact Function.update_of_ne (hother a ha) ..
  have hprev : (c.write i key value).links.prev i = -1 := Function.update_self ..
  have hnext : (c.write i key value).links.next i = -1 := Function.update_self ..
  have hfree : ∀ a ∈ free, a ≠ i := by
    rintro a ha rfl
    have hnd := h.nodup
    exact (List.nodup_append.1 hnd).2.2 a (by simp) a ha rfl
  obtain ⟨t, hinsert, hholds⟩ :=
    Probe.insert_key (h.table.congr_home fun j hj => congrArg slotOf (hkeys j hj)) h.exists_empty hfresh hnull
  have hhome : (c.write i key value).home i = slotOf key := congrArg slotOf hnew
  set c₁ := (c.write i key value).setTable t with hc₁
  refine ⟨c₁.setLinks (c₁.links.pushFront i), ?_, ⟨?_, ?_, ?_, ?_, ?_, ?_, hholds⟩, ?_, ?_⟩
  · have hins : (c.write i key value).htInsert key i = (c₁, true) := by
      rw [htInsert, ← hhome]
      exact congrArg (fun p : (ℕ → ℤ) × Bool => ((c.write i key value).setTable p.1, p.2)) hinsert
    rw [fill, hins]
    rfl
  · exact Links.pushFront_listed hlisted hi hprev hnext
  · refine h.chain.congr ?_
    intro a ha
    refine (Links.pushFront_next (l := c₁.links) hnext (hfree a ha)).trans ?_
    exact Function.update_of_ne (hfree a ha) ..
  · rw [List.append_nil]
    exact ((List.perm_append_singleton i ids).symm.append_right free).trans h.partition
  · intro j hj
    rw [List.append_nil] at hj
    exact h.used j ((List.perm_append_singleton i ids).mem_iff.2 hj)
  · have hsame : ids.map (c.write i key value).key = ids.map c.key := List.map_congr_left hkeys
    change ((i :: ids).map (c.write i key value).key).Nodup
    rw [List.map_cons, List.nodup_cons, hsame, hnew]
    refine ⟨?_, h.keys⟩
    intro hmem
    obtain ⟨j, hj, heq⟩ := List.mem_map.1 hmem
    exact hkey j hj heq
  · refine h.size.trans ?_
    simp
  · exact Prod.ext hnew (Function.update_self ..)
  · intro j hj
    exact Prod.ext (hkeys j hj) (Function.update_of_ne (hother j hj) ..)

end Cache

/-! ## The reference -/

open Cache

inductive Op where
  | put (key value : UInt32)
  | get (key : UInt32) (value : Option UInt32)

def step (c : Cache) : Op → Option (Cache × Reply)
  | .put key value => (c.lruPut key value).map fun (c, ret) => (c, ⟨ret, none⟩)
  | .get key value => some (c.lruGet key value)

abbrev Ref := Lru capacity UInt32 UInt32

def refStep (s : Ref) : Op → Ref × Reply
  | .put key value => (s.store key value, ⟨true, none⟩)
  | .get key value =>
    match s.find key with
    | none => (s, ⟨false, value⟩)
    | some v => (s.touch key, ⟨true, value.map fun _ => v⟩)

/-- some list of nodes satisfies the invariant and carries the pairs of the reference in order -/
def Agrees (c : Cache) (s : Ref) : Prop := ∃ ids free, c.Inv ids [] free ∧ s.entries = ids.map c.pair

variable {c : Cache} {s : Ref} {ids free : List ℤ}

/-- a lookup finds the node of the key or nothing, like the reference -/
theorem htFind_cases (h : c.Inv ids [] free) (hs : s.entries = ids.map c.pair) (key : UInt32) :
    (∃ l i r, ids = l ++ i :: r ∧ c.key i = key ∧ c.htFind key = i ∧ i ≠ -1 ∧ s.find key = some (c.value i)) ∨
      (∀ i ∈ ids, c.key i ≠ key) ∧ c.htFind key = -1 ∧ s.find key = none := by
  by_cases hex : ∃ i ∈ ids, c.key i = key
  · obtain ⟨i, hi, rfl⟩ := hex
    obtain ⟨l, r, rfl⟩ := List.append_of_mem hi
    exact Or.inl ⟨l, i, r, rfl, rfl, h.htFind_listed hi, h.listed.ne_null hi, Lru.find_map hs hi⟩
  · push Not at hex
    exact Or.inr ⟨hex, h.htFind_absent hex, Lru.find_absent hs hex⟩

theorem lruGet_refines (h : Agrees c s) (key : UInt32) (value : Option UInt32) :
    (c.lruGet key value).2 = (refStep s (.get key value)).2 ∧
      Agrees (c.lruGet key value).1 (refStep s (.get key value)).1 := by
  obtain ⟨ids, free, hinv, hs⟩ := h
  rcases htFind_cases hinv hs key with ⟨l, i, r, rfl, rfl, hfound, hnull, hfind⟩ | ⟨-, hfound, hfind⟩
  · rw [lruGet, refStep, hfound, if_neg hnull, hfind]
    refine ⟨rfl, i :: (l ++ r), free, moveToHead_inv hinv, ?_⟩
    exact Lru.touch_map hs
  · rw [lruGet, refStep, hfound, if_pos rfl, hfind]
    exact ⟨rfl, ids, free, hinv, hs⟩

theorem put_present {l r : List ℤ} {i : ℤ} (hinv : c.Inv (l ++ i :: r) [] free)
    (hs : s.entries = (l ++ i :: r).map c.pair) (value : UInt32) :
    Agrees ((c.setValue i value).moveToHead i) (s.store (c.key i) value) := by
  refine ⟨i :: (l ++ r), free, moveToHead_inv (setValue_inv hinv i value), ?_⟩
  have hnd := (List.nodup_append.1 hinv.nodup).1
  rw [List.append_nil] at hnd
  have hrest : ∀ j ∈ l ++ r, ((c.setValue i value).moveToHead i).pair j = c.pair j := by
    intro j hj
    refine Prod.ext rfl (Function.update_of_ne ?_ ..)
    rintro rfl
    exact (List.nodup_cons.1 (List.nodup_middle.1 hnd)).1 hj
  have hself : ((c.setValue i value).moveToHead i).pair i = (c.key i, value) :=
    Prod.ext rfl (Function.update_self ..)
  have hstore : (s.store (c.key i) value).entries = (c.key i, value) :: (l ++ r).map c.pair :=
    Lru.store_present hs value
  rw [hstore, List.map_cons, hself, List.map_congr_left hrest]

/-- a new key in a node in flight: `ids` are the nodes that stay -/
theorem put_filled {i : ℤ} (h : c.Inv ids [i] free) {key : UInt32} (value : UInt32) (hkey : ∀ j ∈ ids, c.key j ≠ key)
    (hs : s.entries = (key, value) :: ids.map c.pair) :
    ∃ c', c.fill i key value = (c', true) ∧ Agrees c' s := by
  obtain ⟨c', hfill, hinv, hnew, hold⟩ := fill_inv h value hkey
  refine ⟨c', hfill, i :: ids, free, hinv, ?_⟩
  rw [hs, List.map_cons, hnew, List.map_congr_left hold]

theorem put_evict (hinv : c.Inv ids [] free) (hs : s.entries = ids.map c.pair) {key : UInt32} (value : UInt32)
    (habsent : ∀ i ∈ ids, c.key i ≠ key) (hfull : ids.length = capacity) :
    ∃ c₁ i c₂, c.removeTail = (c₁, i) ∧ i ≠ -1 ∧ (c₁.htRemove (c₁.key i)).map (fun c => c.fill i key value) =
      some (c₂, true) ∧ Agrees c₂ (s.store key value) := by
  have hne : ids ≠ [] := by
    rintro rfl
    simp [capacity] at hfull
  obtain ⟨l, i, rfl⟩ : ∃ l i, ids = l ++ [i] := ⟨_, _, (List.dropLast_concat_getLast hne).symm⟩
  have htail : c.links.tail = i := Links.prv_null (l := c.links) ▸ hinv.listed.last
  have hnull : i ≠ -1 := hinv.listed.ne_null (by simp)
  obtain ⟨t, hremove, hinv₁⟩ := evict_inv hinv
  have hstore := Lru.store_absent hs habsent value
  rw [if_pos hfull, List.dropLast_concat] at hstore
  obtain ⟨c₂, hfill, hagree⟩ :=
    put_filled hinv₁ value (fun j hj => habsent j (List.mem_append_left [i] hj)) hstore
  refine ⟨c.setLinks c.links.removeTail, i, c₂, ?_, hnull, ?_, hagree⟩
  · rw [removeTail, htail, if_neg hnull]
  · have hkey : (c.setLinks c.links.removeTail).key i = c.key i := rfl
    rw [hkey, hremove, Option.map_some, hfill]

theorem put_alloc (hinv : c.Inv ids [] free) (hs : s.entries = ids.map c.pair) {key : UInt32} (value : UInt32)
    (habsent : ∀ i ∈ ids, c.key i ≠ key) (hroom : ids.length < capacity) :
    ∃ c₂, c.allocNode.2 ≠ -1 ∧ (c.allocNode.1.addSize 1).fill c.allocNode.2 key value = (c₂, true) ∧
      Agrees c₂ (s.store key value) := by
  cases free with
  | nil =>
    have hcount := hinv.count
    rw [List.length_nil] at hcount
    omega
  | cons i free =>
    obtain ⟨hi, hpair, hinv₁⟩ := alloc_inv hinv
    have hkeys : (c.allocNode.1.addSize 1).key = c.key := by
      funext j
      exact congrArg Prod.fst (congrFun hpair j)
    have hstore := Lru.store_absent hs habsent value
    rw [if_neg (Nat.ne_of_lt hroom), ← hpair] at hstore
    obtain ⟨c₂, hfill, hagree⟩ := put_filled hinv₁ value (fun j hj => hkeys ▸ habsent j hj) hstore
    exact ⟨c₂, hi ▸ hinv.ne_null (by simp), hi.symm ▸ hfill, hagree⟩

theorem lruPut_refines (h : Agrees c s) (key value : UInt32) :
    ∃ c', c.lruPut key value = some (c', true) ∧ Agrees c' (s.store key value) := by
  obtain ⟨ids, free, hinv, hs⟩ := h
  rcases htFind_cases hinv hs key with ⟨l, i, r, rfl, rfl, hfound, hnull, -⟩ | ⟨habsent, hfound, -⟩
  · refine ⟨_, ?_, put_present hinv hs value⟩
    rw [lruPut, hfound, if_pos hnull]
  · have hsize := hinv.size
    have hcount := hinv.count
    rw [List.length_nil] at hsize hcount
    have hlookup : ¬c.htFind key ≠ -1 := not_not.2 hfound
    rcases Nat.lt_or_ge ids.length capacity with hroom | hfull
    · obtain ⟨c₂, hnull, hfill, hagree⟩ := put_alloc hinv hs value habsent hroom
      refine ⟨c₂, ?_, hagree⟩
      rw [lruPut, if_neg hlookup, if_neg (by omega)]
      simp only [if_neg hnull, hfill]
    · obtain ⟨c₁, i, c₂, htail, hnull, hput, hagree⟩ := put_evict hinv hs value habsent (by omega)
      refine ⟨c₂, ?_, hagree⟩
      rw [lruPut, if_neg hlookup, if_pos (by omega), htail]
      simp only [if_neg hnull, hput]

/-- **One call** is answered like the reference. -/
theorem step_refines (h : Agrees c s) (op : Op) :
    ∃ c' reply, step c op = some (c', reply) ∧ reply = (refStep s op).2 ∧ Agrees c' (refStep s op).1 := by
  cases op with
  | put key value =>
    obtain ⟨c', hput, hagree⟩ := lruPut_refines h key value
    exact ⟨c', ⟨true, none⟩, by rw [step, hput, Option.map_some], rfl, hagree⟩
  | get key value =>
    obtain ⟨hreply, hagree⟩ := lruGet_refines h key value
    exact ⟨_, _, rfl, hreply, hagree⟩

/-! ## Whole runs -/

theorem init_agrees : Agrees lruInit Lru.empty := ⟨[], allNodes, lruInit_inv, rfl⟩

theorem order_eq (h : c.Inv ids [] free) : c.order = some ids ∧ c.freeOrder = some free := by
  have hcount := h.count
  exact ⟨h.listed.follow (by omega), h.chain.follow (by omega)⟩

/-- **Refinement.** From `lru_init`, every run of calls terminates and is answered like the reference; following `next`
from `head` visits the reference's pairs in recency order, and these nodes together with those from `free_head` by `next`
are all nodes, each once. -/
theorem lists_refine_reference (ops : List Op) :
    ∃ c ids free, Machine.run step lruInit ops = some (c, (Machine.runTotal refStep Lru.empty ops).2) ∧
      c.order = some ids ∧ ids.map c.pair = (Machine.runTotal refStep Lru.empty ops).1.entries ∧
      c.freeOrder = some free ∧ (ids ++ free).Perm allNodes := by
  obtain ⟨c, replies, hrun, hreplies, ids, free, hinv, hs⟩ :=
    Machine.run_simulates (R := Agrees) (f := id) (g := id)
      (fun op _ c s h => step_refines h op) init_agrees
  rw [List.map_id, List.map_id] at hreplies
  obtain ⟨horder, hfree⟩ := order_eq hinv
  have hpart := hinv.partition
  rw [List.append_nil] at hpart
  exact ⟨c, ids, free, hreplies ▸ hrun, horder, hs.symm, hfree, hpart⟩

end InterviewPrep.LruCache.Hashed
