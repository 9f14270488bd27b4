/-
The invariant of the packet cache and what each operation does to it.

`Inv c ids out`: `ids` is the recency list and `out` lists the nodes in flight (taken from the free stack or evicted, not
yet in the list). Every node is in exactly one of the list, the free stack and `out`; exactly the listed nodes are valid;
their keys differ; the table holds them, each reachable from its home slot (`Probe.Holds`).

One lemma for each operation, with the packets (`pair`) it leaves in place:
- `moveToHead_inv`, `release_inv`, `allocateNode_inv`, `putNew_inv`, `overwrite_inv`.
`allocateNode_inv` and `putNew_inv` also say that no index -1 is handed out and that the table always has room.
-/
import InterviewPrep.LruCache.Packet

namespace InterviewPrep.LruCache.Packet

namespace Cache

variable {c c' : Cache} {i j : ℤ} {ids l r out : List ℤ}

/-! ## Nodes, table and free stack -/

def allNodes : List ℤ := (List.range capacity).map (↑)

/-- `free_list[0..free_count)` -/
def freeStack (c : Cache) : List ℤ := (List.range c.freeCount).map c.freeList

/-- everything but the links: `ids` are the listed nodes, `out` the nodes in flight -/
structure Cells (c : Cache) (ids out : List ℤ) : Prop where
  partition : (ids ++ out ++ c.freeStack).Perm allNodes
  valid : ∀ i, (c.nodes i).valid = true ↔ i ∈ ids
  keys : (ids.map fun i => (c.nodes i).key).Nodup
  size : c.size = ids.length
  table : Probe.Holds hashSize (-1) c.hashTable c.home {i | i ∈ ids}
  data : ∀ i, (c.nodes i).data.length = maxPacketSize
  len : ∀ i, (c.nodes i).len ≤ maxPacketSize

theorem mem_allNodes : i ∈ allNodes ↔ 0 ≤ i ∧ i < capacity := by
  simp only [allNodes, List.mem_map, List.mem_range]
  constructor
  · rintro ⟨n, hn, rfl⟩
    omega
  · intro hi
    exact ⟨i.toNat, by omega, by omega⟩

theorem nodup_allNodes : allNodes.Nodup := List.nodup_range.map Nat.cast_injective

theorem lruInit_cells : lruInit.Cells [] [] where
  partition := by
    rw [List.nil_append, List.nil_append]
    exact List.Perm.refl _
  valid i := by simp [lruInit]
  keys := List.nodup_nil
  size := rfl
  table := ⟨⟨by simp [lruInit], by simp, by simp [lruInit], by simp⟩, by simp [lruInit]⟩
  data i := List.length_replicate
  len i := Nat.zero_le _

namespace Cells

theorem nodup (h : c.Cells ids out) : (ids ++ out ++ c.freeStack).Nodup := h.partition.nodup_iff.2 nodup_allNodes

theorem nodup_ids (h : c.Cells ids out) : ids.Nodup := (List.nodup_append.1 (List.nodup_append.1 h.nodup).1).1

theorem count (h : c.Cells ids out) : ids.length + out.length + c.freeCount = capacity := by
  simpa [freeStack, allNodes, Nat.add_assoc] using h.partition.length_eq

theorem key_inj (h : c.Cells ids out) (hi : i ∈ ids) (hj : j ∈ ids) (hkey : (c.nodes i).key = (c.nodes j).key) :
    i = j := List.inj_on_of_nodup_map h.keys hi hj hkey

theorem exists_empty (h : c.Cells ids out) : ∃ s < hashSize, c.hashTable s = -1 := by
  have hcount := h.count
  refine h.table.exists_empty (fun j (hj : j ∈ ids) => hj) ?_
  simp only [capacity, hashSize] at hcount ⊢
  omega

/-- nothing above depends on the links -/
theorem frame (h : c.Cells ids out) (hf : Frame c c') : c'.Cells ids out := by
  have hcore := hf.core
  simp only [core, Prod.mk.injEq] at hcore
  have hhome : c'.home = c.home := by
    funext i
    rw [home, home, (hcore i).1]
  have hstack : c'.freeStack = c.freeStack := by
    rw [freeStack, freeStack, hf.freeCount, hf.freeList]
  refine ⟨?_, ?_, ?_, ?_, ?_, ?_, ?_⟩
  · rw [hstack]
    exact h.partition
  · intro i
    rw [(hcore i).2.2.2]
    exact h.valid i
  · simp only [(hcore _).1]
    exact h.keys
  · rw [hf.size]
    exact h.size
  · rw [hf.table, hhome]
    exact h.table
  · intro i
    rw [(hcore i).2.1]
    exact h.data i
  · intro i
    rw [(hcore i).2.2.1]
    exact h.len i

/-- nor on the order of the list -/
theorem perm (h : c.Cells ids out) {ids' : List ℤ} (hp : ids'.Perm ids) : c.Cells ids' out where
  partition := ((hp.append_right out).append_right _).trans h.partition
  valid i := (h.valid i).trans hp.mem_iff.symm
  keys := (hp.map _).nodup_iff.2 h.keys
  size := by rw [h.size, hp.length_eq]
  table := by
    simp only [hp.mem_iff]
    exact h.table
  data := h.data
  len := h.len

end Cells

/-! ## Table operations -/

theorem hit_iff (h : c.Cells ids out) (hi : i ∈ ids) {key : UInt32} : c.hit key i = true ↔ (c.nodes i).key = key := by
  simp [hit, (h.valid i).2 hi]

theorem hashLookupNode_found (h : c.Cells ids out) (hi : i ∈ ids) : c.hashLookupNode (c.nodes i).key = i :=
  Probe.lookup_key h.table h.keys (fun _ hj => hit_iff h hj) hi

theorem hashLookupNode_absent (h : c.Cells ids out) {key : UInt32} (hkey : ∀ i ∈ ids, (c.nodes i).key ≠ key) :
    c.hashLookupNode key = -1 :=
  Probe.lookup_noKey h.table (fun _ hj => hit_iff h hj) hkey (hashKey key)

theorem hashRemove_listed (h : c.Cells (l ++ i :: r) out) :
    ∃ t, c.hashRemove (c.nodes i).key = some (c.setTable t, true) ∧
      Probe.Holds hashSize (-1) t c.home {j | j ∈ l ++ r} := by
  obtain ⟨t, hremove, hholds⟩ := Probe.remove_key h.table h.exists_empty h.keys fun _ hj => hit_iff h hj
  refine ⟨t, ?_, hholds⟩
  have hbase : hashKey (c.nodes i).key = c.home i := rfl
  rw [hashRemove, hbase, hremove, Option.map_some]

theorem hashInsert_new (htable : Probe.Holds hashSize (-1) c.hashTable c.home {j | j ∈ ids})
    (hroom : ∃ s < hashSize, c.hashTable s = -1) (hi : i ∉ ids) (hnull : i ≠ -1) :
    ∃ t, c.hashInsert (c.nodes i).key i = (c.setTable t, true) ∧
      Probe.Holds hashSize (-1) t c.home {j | j ∈ i :: ids} := by
  obtain ⟨t, hinsert, hholds⟩ := Probe.insert_key htable hroom hi hnull
  refine ⟨t, ?_, hholds⟩
  have hbase : hashKey (c.nodes i).key = c.home i := rfl
  rw [hashInsert, hbase, hinsert]

/-! ## Nodes in flight -/

theorem nodes_invalidate (hj : j ≠ i) : (c.invalidate i).nodes j = c.nodes j := Function.update_of_ne hj ..

namespace Cells

/-- a listed node leaves the table and the list -/
theorem detach (h : c.Cells (l ++ i :: r) out) {t : ℕ → ℤ}
    (ht : Probe.Holds hashSize (-1) t c.home {j | j ∈ l ++ r}) (hf : Frame (c.setTable t) c') :
    Cells ((c'.invalidate i).addSize (-1)) (l ++ r) (i :: out) := by
  have hcore := hf.core
  simp only [core, Prod.mk.injEq, nodes_setTable] at hcore
  have hnd := List.nodup_cons.1 (List.nodup_middle.1 h.nodup_ids)
  have hkey : ∀ j, ((c'.invalidate i).nodes j).key = (c.nodes j).key := by
    intro j
    by_cases hj : j = i
    · simp [invalidate, setNode, hj, (hcore i).1]
    · rw [nodes_invalidate hj, (hcore j).1]
  refine ⟨?_, ?_, ?_, ?_, ?_, ?_, ?_⟩
  · have hstack : ((c'.invalidate i).addSize (-1)).freeStack = c.freeStack := by
      simp only [freeStack, invalidate, setNode, addSize, setTable, hf.freeCount, hf.freeList]
    rw [hstack]
    refine (List.Perm.append_right _ ?_).trans h.partition
    rw [List.append_assoc, List.append_assoc]
    refine List.Perm.append_left l ?_
    rw [List.cons_append]
    exact List.perm_middle
  · intro j
    rw [nodes_addSize]
    by_cases hj : j = i
    · simp [invalidate, setNode, hj, hnd.1]
    · rw [nodes_invalidate hj, (hcore j).2.2.2]
      exact (h.valid j).trans (by rw [List.perm_middle.mem_iff, List.mem_cons, or_iff_right hj])
  · simp only [nodes_addSize, hkey]
    refine (List.Sublist.map _ ?_).nodup h.keys
    exact (List.sublist_cons_self i r).append_left l
  · have hsize : ((c'.invalidate i).addSize (-1)).size = c.size + -1 := congrArg (· + -1) hf.size
    rw [hsize, h.size, List.length_append, List.length_append, List.length_cons]
    omega
  · have hhome : ((c'.invalidate i).addSize (-1)).home = c.home := by
      funext j
      exact congrArg hashKey (hkey j)
    have htable : ((c'.invalidate i).addSize (-1)).hashTable = t := hf.table
    rw [hhome, htable]
    exact ht
  · intro j
    rw [nodes_addSize]
    by_cases hj : j = i
    · simp [invalidate, setNode, hj, (hcore i).2.1, h.data i]
    · rw [nodes_invalidate hj, (hcore j).2.1, h.data j]
  · intro j
    rw [nodes_addSize]
    by_cases hj : j = i
    · simp [invalidate, setNode, hj, (hcore i).2.2.1, h.len i]
    · rw [nodes_invalidate hj, (hcore j).2.2.1]
      exact h.len j

/-- the top of the free stack is handed out -/
theorem pop (h : c.Cells ids []) (hfree : 0 < c.freeCount) :
    c.popFree.Cells ids [c.freeList (c.freeCount - 1)] where
  partition := by
    refine List.Perm.trans ?_ h.partition
    obtain ⟨n, hn⟩ : ∃ n, c.freeCount = n + 1 := ⟨c.freeCount - 1, by omega⟩
    rw [List.append_nil, List.append_assoc]
    refine List.Perm.append_left ids ?_
    simp only [freeStack, popFree, hn, Nat.add_sub_cancel, List.range_succ, List.map_append, List.map_cons, List.map_nil]
    exact List.perm_append_comm
  valid := h.valid
  keys := h.keys
  size := h.size
  table := h.table
  data := h.data
  len := h.len

/-- a node in flight is a node of the array, and not a listed one -/
theorem inFlight (h : c.Cells ids [i]) : 0 ≤ i ∧ i ∉ ids := by
  refine ⟨(mem_allNodes.1 (h.partition.subset (by simp))).1, ?_⟩
  have hnd := (List.nodup_append.1 h.nodup).1
  exact fun hi => (List.nodup_append.1 hnd).2.2 i hi i (by simp) rfl

theorem room (h : c.Cells ids [i]) : c.freeCount < capacity := by
  have hcount := h.count
  rw [List.length_singleton] at hcount
  omega

/-- a node in flight goes back on the free stack -/
theorem push (h : c.Cells ids [i]) :
    (c.stackFree i).Cells ids [] := by
  refine ⟨?_, h.valid, h.keys, h.size, h.table, h.data, h.len⟩
  refine List.Perm.trans ?_ h.partition
  have hstack : (c.stackFree i).freeStack = c.freeStack ++ [i] := by
    simp only [freeStack, stackFree, List.range_succ, List.map_append, List.map_cons, List.map_nil,
      Function.update_self]
    congr 1
    refine List.map_congr_left fun n hn => Function.update_of_ne ?_ ..
    exact Nat.ne_of_lt (List.mem_range.1 hn)
  rw [hstack, List.append_nil, List.append_assoc]
  refine List.Perm.append_left ids ?_
  exact List.perm_append_comm

/-- a node in flight is written and entered into the table -/
theorem fill (h : c.Cells ids [i]) {n : Node} (hvalid : n.valid = true) (hkey : ∀ j ∈ ids, (c.nodes j).key ≠ n.key)
    (hdata : n.data.length = maxPacketSize) (hlen : n.len ≤ maxPacketSize) :
    ∃ t, (c.setNode i n).hashInsert n.key i = ((c.setNode i n).setTable t, true) ∧
      (((c.setNode i n).setTable t).addSize 1).Cells (i :: ids) [] := by
  obtain ⟨hnonneg, hfresh⟩ := h.inFlight
  have hother : ∀ j, j ≠ i → (c.setNode i n).nodes j = c.nodes j := fun j hj => Function.update_of_ne hj ..
  have hself : (c.setNode i n).nodes i = n := Function.update_self ..
  have hne : ∀ j ∈ ids, j ≠ i := by
    rintro j hj rfl
    exact hfresh hj
  have htable : Probe.Holds hashSize (-1) (c.setNode i n).hashTable (c.setNode i n).home {j | j ∈ ids} := by
    refine h.table.congr_home fun j hj => ?_
    rw [home, home, hother j (hne j hj)]
  obtain ⟨t, hinsert, hholds⟩ := hashInsert_new htable h.exists_empty hfresh (by omega)
  rw [hself] at hinsert
  refine ⟨t, hinsert, ?_, ?_, ?_, ?_, hholds, ?_, ?_⟩
  · refine List.Perm.trans ?_ h.partition
    exact List.Perm.append_right _ (by rw [List.append_nil]; exact (List.perm_append_singleton i ids).symm)
  · intro j
    rw [nodes_addSize, nodes_setTable]
    by_cases hj : j = i
    · simp [hj, hself, hvalid]
    · rw [hother j hj, h.valid j, List.mem_cons, or_iff_right hj]
  · have hsame : (ids.map fun j => ((c.setNode i n).nodes j).key) = ids.map fun j => (c.nodes j).key :=
      List.map_congr_left fun j hj => by rw [hother j (hne j hj)]
    rw [nodes_addSize, nodes_setTable, List.map_cons, List.nodup_cons, hsame, hself]
    refine ⟨?_, h.keys⟩
    intro hmem
    obtain ⟨j, hj, heq⟩ := List.mem_map.1 hmem
    exact hkey j hj heq
  · rw [List.length_cons, Nat.cast_succ, ← h.size]
    rfl
  · intro j
    rw [nodes_addSize, nodes_setTable]
    by_cases hj : j = i
    · rw [hj, hself, hdata]
    · rw [hother j hj, h.data j]
  · intro j
    rw [nodes_addSize, nodes_setTable]
    by_cases hj : j = i
    · rw [hj, hself]
      exact hlen
    · rw [hother j hj]
      exact h.len j

/-- the packet of a listed node is replaced -/
theorem overwrite (h : c.Cells ids out) {data : List UInt8} {len : ℕ} (hdata : data.length = maxPacketSize)
    (hlen : len ≤ maxPacketSize) : (c.setNode i { c.nodes i with data := data, len := len }).Cells ids out := by
  have hkey : ∀ j, ((c.setNode i { c.nodes i with data := data, len := len }).nodes j).key = (c.nodes j).key := by
    intro j
    by_cases hj : j = i <;> simp [setNode, hj]
  have hhome : (c.setNode i { c.nodes i with data := data, len := len }).home = c.home := by
    funext j
    rw [home, home, hkey]
  refine ⟨h.partition, ?_, ?_, h.size, ?_, ?_, ?_⟩
  · intro j
    by_cases hj : j = i <;> simp [setNode, hj, h.valid]
  · simp only [hkey]
    exact h.keys
  · rw [hhome]
    exact h.table
  · intro j
    by_cases hj : j = i
    · simpa [setNode, hj] using hdata
    · simp [setNode, hj, h.data j]
  · intro j
    by_cases hj : j = i
    · simpa [setNode, hj] using hlen
    · simp [setNode, hj, h.len j]

end Cells

/-! ## The invariant -/

structure Inv (c : Cache) (ids out : List ℤ) : Prop where
  listed : c.Listed ids
  cells : c.Cells ids out

/-- key and packet of a node -/
def pair (c : Cache) (i : ℤ) : UInt32 × List UInt8 := ((c.nodes i).key, (c.nodes i).data.take (c.nodes i).len)

theorem Frame.pair (hf : Frame c c') (i : ℤ) : c'.pair i = c.pair i := by
  have hcore := hf.core i
  simp only [Cache.core, Prod.mk.injEq] at hcore
  rw [Cache.pair, Cache.pair, hcore.1, hcore.2.1, hcore.2.2.1]

theorem pair_invalidate (hj : j ≠ i) : (c.invalidate i).pair j = c.pair j := by
  rw [pair, pair, nodes_invalidate hj]

theorem length_pair (h : c.Cells ids out) (i : ℤ) : (c.pair i).2.length = (c.nodes i).len := by
  rw [pair, List.length_take, h.data i]
  exact Nat.min_eq_left (h.len i)

theorem lruInit_inv : lruInit.Inv [] [] := ⟨⟨by simp, rfl, rfl⟩, lruInit_cells⟩

theorem Inv.notMem (h : c.Inv (l ++ i :: r) out) : i ∉ l ++ r :=
  (List.nodup_cons.1 (List.nodup_middle.1 h.cells.nodup_ids)).1

theorem moveToHead_inv (h : c.Inv (l ++ i :: r) out) : (c.moveToHead i).Inv (i :: (l ++ r)) out where
  listed := moveToHead_listed h.listed
  cells := (h.cells.frame (moveToHead_frame c i)).perm List.perm_middle.symm

theorem release_inv (h : c.Inv (l ++ i :: r) []) :
    ∃ c', c.release (c.nodes i).key i = some c' ∧ c'.Inv (l ++ r) [] ∧ ∀ j ∈ l ++ r, c'.pair j = c.pair j := by
  obtain ⟨t, hremove, ht⟩ := hashRemove_listed h.cells
  have hframe := unlink_frame (c.setTable t) i
  have hcells := h.cells.detach ht hframe
  have hlisted : (unlink (c.setTable t) i).Listed (l ++ r) := unlink_listed h.listed
  have hlisted' : (((unlink (c.setTable t) i).invalidate i).addSize (-1)).Listed (l ++ r) :=
    hlisted.setNode fun hi => absurd hi h.notMem
  refine ⟨(((unlink (c.setTable t) i).invalidate i).addSize (-1)).stackFree i, ?_, ⟨hlisted', hcells.push⟩, ?_⟩
  · have hpush : ((unlink (c.setTable t) i).invalidate i).pushFree i =
        some (((unlink (c.setTable t) i).invalidate i).stackFree i) := if_pos hcells.room
    simp only [release, hremove, Option.bind_some, hpush, Option.map_some]
    rfl
  · intro j hj
    have hne : j ≠ i := by
      rintro rfl
      exact h.notMem hj
    exact (pair_invalidate hne).trans (hframe.pair j)

/-- the free stack or the least recent node: the index is never -1 -/
theorem allocateNode_inv (h : c.Inv ids []) :
    ∃ c' i, c.allocateNode = some (c', i) ∧ 0 ≤ i ∧
      c'.Inv (if ids.length = capacity then ids.dropLast else ids) [i] ∧ ∀ j ∈ ids, j ≠ i → c'.pair j = c.pair j := by
  have hcount := h.cells.count
  rw [List.length_nil, Nat.add_zero] at hcount
  by_cases hfree : 0 < c.freeCount
  · have hcells := h.cells.pop hfree
    rw [allocateNode, if_pos hfree, if_neg (by omega)]
    exact ⟨_, _, rfl, hcells.inFlight.1, ⟨h.listed, hcells⟩, fun j _ _ => rfl⟩
  · -- the list is full, so it has a last node
    have hfull : ids.length = capacity := by omega
    have hne : ids ≠ [] := by
      rintro rfl
      simp [capacity] at hfull
    obtain ⟨l, i, rfl⟩ : ∃ l i, ids = l ++ [i] := ⟨_, _, (List.dropLast_concat_getLast hne).symm⟩
    have htail : c.tail = i := Ring.last h.listed
    have hnull : i ≠ -1 := h.listed.ne_null (by simp)
    obtain ⟨t, hremove, ht⟩ := hashRemove_listed h.cells
    have hframe := unlinkTail_frame (c.setTable t) i
    have hcells := h.cells.detach ht hframe
    have hlisted : (unlinkTail (c.setTable t) i).Listed (l ++ []) := unlinkTail_listed h.listed htail.symm
    rw [allocateNode, if_neg hfree, if_neg (htail ▸ hnull), htail, hremove, if_pos hfull, List.dropLast_concat]
    rw [List.append_nil] at hcells hlisted
    refine ⟨_, i, rfl, hcells.inFlight.1, ⟨hlisted.setNode fun hi => absurd hi ?_, hcells⟩, ?_⟩
    · simpa using h.notMem
    · intro j _ hj
      exact (pair_invalidate hj).trans (hframe.pair j)

theorem memcpy_all {dst src : List UInt8} {n : ℕ} (h : src.length = n) : memcpy dst src n = src ++ dst.drop n := by
  rw [memcpy, ← h, List.take_length]

theorem take_memcpy {dst src : List UInt8} {n : ℕ} (h : src.length = n) : (memcpy dst src n).take n = src := by
  rw [memcpy_all h, ← h, List.take_left]

theorem length_memcpy {dst src : List UInt8} {n : ℕ} (h : src.length = n) (hn : n ≤ dst.length) :
    (memcpy dst src n).length = dst.length := by
  rw [memcpy_all h, List.length_append, List.length_drop, h]
  omega

theorem Frame.addSize (hf : Frame c c') (d : ℤ) :
    Frame (c.addSize d) (c'.addSize d) :=
  ⟨hf.core, hf.table, hf.freeCount, hf.freeList, congrArg (· + d) hf.size⟩

/-- the insertion into the table does not fail -/
theorem putNew_inv (h : c.Inv ids [i]) {key : UInt32} {data : List UInt8} {len : ℕ} (hdata : data.length = len)
    (hlen : len ≤ maxPacketSize) (hkey : ∀ j ∈ ids, (c.nodes j).key ≠ key) :
    ∃ c', c.putNew i key data len = some (c', true) ∧ c'.Inv (i :: ids) [] ∧ c'.pair i = (key, data) ∧
      ∀ j ∈ ids, c'.pair j = c.pair j := by
  set n : Node := ⟨key, memcpy (c.nodes i).data data len, len, true, -1, -1⟩ with hn
  have hlength : n.data.length = maxPacketSize := by
    rw [hn, length_memcpy hdata (by rw [h.cells.data]; exact hlen), h.cells.data]
  obtain ⟨t, hinsert, hcells⟩ := h.cells.fill (n := n) rfl hkey hlength hlen
  obtain ⟨hnonneg, hfresh⟩ := h.cells.inFlight
  have hnull : i ≠ -1 := by omega
  have hlisted : Listed ((c.setNode i n).setTable t) ids := h.listed.setNode fun hi => absurd hi hfresh
  have hprev : (((c.setNode i n).setTable t).nodes i).prev = -1 := by simp [setNode, hn]
  have hframe := insertAtHead_frame ((c.setNode i n).setTable t) i
  have hlisted' := insertAtHead_listed hlisted (List.not_mem_cons_of_ne_of_not_mem hnull hfresh) hprev
  refine ⟨(insertAtHead ((c.setNode i n).setTable t) i).addSize 1, ?_,
    ⟨hlisted', hcells.frame (hframe.addSize 1)⟩, ?_, ?_⟩
  · simp only [putNew]
    rw [← hn, hinsert]
    rfl
  · refine (hframe.pair i).trans ?_
    simp [pair, setNode, hn, take_memcpy hdata]
  · intro j hj
    refine (hframe.pair j).trans ?_
    have hne : j ≠ i := by
      rintro rfl
      exact hfresh hj
    simp [pair, setNode, hne]

theorem overwrite_inv (h : c.Inv ids out) {data : List UInt8} {len : ℕ} (hdata : data.length = len)
    (hlen : len ≤ maxPacketSize) :
    (c.setNode i { c.nodes i with data := memcpy (c.nodes i).data data len, len := len }).Inv ids out := by
  have hlength := length_memcpy hdata (h.cells.data i ▸ hlen)
  exact ⟨h.listed.setNode fun _ => ⟨rfl, rfl⟩, h.cells.overwrite (hlength.trans (h.cells.data i)) hlen⟩

end Cache

end InterviewPrep.LruCache.Packet
