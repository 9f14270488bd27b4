/-
The table of the packet cache (lruCache/packet/hash.c) on its own, for any hash function.

`hash_lookup_node`, `hash_insert` and `hash_remove` with the hash function as a parameter; `Packet` has them with `hash_key`.
A table is `Probed` if its occupied slots hold distinct valid nodes with distinct keys and no slot on the path from the home
of a node to its slot is empty.

- `hashRemove_spec`: on a `Probed` table with an empty slot, `hash_remove` comes to an end, answers whether the key was
  there, and leaves a `Probed` table in which the key is not found and every other key is found where it was.
-/
import InterviewPrep.LruCache.Packet

namespace InterviewPrep.LruCache.PacketHash

open InterviewPrep.LruCache.Packet

/-! ## Model -/

variable (hash : UInt32 → ℕ)

def home (c : Cache) (i : ℤ) : ℕ := hash (c.nodes i).key

def hashLookupNode (c : Cache) (key : UInt32) : ℤ := Probe.lookup hashSize (-1) c.hashTable (c.hit key) (hash key)

def hashInsert (c : Cache) (key : UInt32) (nodeIndex : ℤ) : Cache × Bool :=
  let (tbl, ok) := Probe.insert hashSize (-1) c.hashTable (hash key) nodeIndex
  (c.setTable tbl, ok)

def hashRemove (c : Cache) (key : UInt32) : Option (Cache × Bool) :=
  (Probe.remove hashSize (-1) (home hash c) c.hashTable (c.hit key) (hash key)).map fun (tbl, ok) => (c.setTable tbl, ok)

theorem hashLookupNode_hashKey (c : Cache) (key : UInt32) :
    c.hashLookupNode key = hashLookupNode Cache.hashKey c key := rfl

theorem hashInsert_hashKey (c : Cache) (key : UInt32) (i : ℤ) :
    c.hashInsert key i = hashInsert Cache.hashKey c key i := rfl

theorem hashRemove_hashKey (c : Cache) (key : UInt32) : c.hashRemove key = hashRemove Cache.hashKey c key := rfl

/-- an occupied slot -/
def Occupied (c : Cache) (s : ℕ) : Prop := s < hashSize ∧ c.hashTable s ≠ -1

def keyAt (c : Cache) (s : ℕ) : UInt32 := (c.nodes (c.hashTable s)).key

structure Probed (c : Cache) : Prop where
  valid : ∀ s, Occupied c s → (c.nodes (c.hashTable s)).valid = true
  distinct : ∀ s s', Occupied c s → Occupied c s' → c.hashTable s = c.hashTable s' → s = s'
  keys : ∀ s s', Occupied c s → Occupied c s' → keyAt c s = keyAt c s' → s = s'
  path : ∀ s, Occupied c s → ∃ p < hashSize, s = (hash (keyAt c s) + p) % hashSize ∧
    ∀ d ≤ p, c.hashTable ((hash (keyAt c s) + d) % hashSize) ≠ -1

/-! ## Entries -/

/-- the nodes in the table -/
def entries (c : Cache) : Set ℤ := {i | ∃ s, Occupied c s ∧ c.hashTable s = i}

variable {hash} {c : Cache} {key : UInt32}

theorem Probed.holds (h : Probed hash c) : Probe.Holds hashSize (-1) c.hashTable (home hash c) (entries c) where
  sound s hs hne := ⟨s, ⟨hs, hne⟩, rfl⟩
  complete i hi := by
    obtain ⟨s, hs, hsi⟩ := hi
    exact ⟨s, hs.1, hsi⟩
  once s hs s' hs' hne heq := h.distinct s s' ⟨hs, hne⟩ ⟨hs', heq ▸ hne⟩ heq
  proper hmem := by
    obtain ⟨s, hs, hsi⟩ := hmem
    exact hs.2 hsi
  path s hs hne := h.path s ⟨hs, hne⟩

/-- the test of the probing loops, on a node in the table -/
theorem Probed.hit_iff (h : Probed hash c) {i : ℤ} (hi : i ∈ entries c) :
    c.hit key i = true ↔ (c.nodes i).key = key := by
  obtain ⟨s, hs, rfl⟩ := hi
  rw [Cache.hit, h.valid s hs, Bool.true_and, beq_iff_eq]

theorem Probed.key_inj (h : Probed hash c) {i j : ℤ} (hi : i ∈ entries c) (hj : j ∈ entries c)
    (hkey : (c.nodes i).key = (c.nodes j).key) : i = j := by
  obtain ⟨s, hs, rfl⟩ := hi
  obtain ⟨s', hs', rfl⟩ := hj
  rw [h.keys s s' hs hs' hkey]

/-- a table that holds some of the entries is `Probed` like the one before -/
theorem Probed.of_holds (h : Probed hash c) {t : ℕ → ℤ} {S : Set ℤ} (hsub : S ⊆ entries c)
    (ht : Probe.Holds hashSize (-1) t (home hash c) S) : Probed hash (c.setTable t) where
  valid s hs := by
    obtain ⟨s', hs', heq⟩ := hsub (ht.sound s hs.1 hs.2)
    show (c.nodes (t s)).valid = true
    rw [← heq]
    exact h.valid s' hs'
  distinct s s' hs hs' heq := ht.once s hs.1 s' hs'.1 hs.2 heq
  keys s s' hs hs' hkey := by
    apply ht.once s hs.1 s' hs'.1 hs.2
    exact h.key_inj (hsub (ht.sound s hs.1 hs.2)) (hsub (ht.sound s' hs'.1 hs'.2)) hkey
  path s hs := ht.path s hs.1 hs.2

theorem Probed.hit_only (h : Probed hash c) {i : ℤ} (hi : i ∈ entries c) :
    ∀ j ∈ entries c, c.hit (c.nodes i).key j = true → j = i := by
  intro j hj hhit
  exact h.key_inj hj hi ((h.hit_iff hj).1 hhit)

/-! ## Lookup and removal -/

/-- what a lookup answers when the table holds `S` -/
theorem lookup_spec (h : Probed hash c) {t : ℕ → ℤ} {S : Set ℤ} (hsub : S ⊆ entries c)
    (ht : Probe.Holds hashSize (-1) t (home hash c) S) (key : UInt32) :
    (∀ i ∈ S, (c.nodes i).key = key → hashLookupNode hash (c.setTable t) key = i) ∧
      ((∀ i ∈ S, (c.nodes i).key ≠ key) → hashLookupNode hash (c.setTable t) key = -1) := by
  refine ⟨fun i hi hkey => ?_, fun hno => ?_⟩
  · subst hkey
    apply Probe.lookup_found ht hi
    · exact (h.hit_iff (hsub hi)).2 rfl
    · exact fun j hj hhit => h.hit_only (hsub hi) j (hsub hj) hhit
  · apply Probe.lookup_absent ht
    intro i hi
    rw [Bool.eq_false_iff]
    exact fun hhit => hno i hi ((h.hit_iff (hsub hi)).1 hhit)

/-- a removal takes out the node with the key, if there is one -/
theorem hashRemove_cases (h : Probed hash c) (hroom : ∃ s < hashSize, c.hashTable s = -1) (key : UInt32) :
    (∃ i ∈ entries c, (c.nodes i).key = key ∧ ∃ t, hashRemove hash c key = some (c.setTable t, true) ∧
        Probe.Holds hashSize (-1) t (home hash c) (entries c \ {i})) ∨
      ((∀ i ∈ entries c, (c.nodes i).key ≠ key) ∧ hashRemove hash c key = some (c, false)) := by
  by_cases hex : ∃ i ∈ entries c, (c.nodes i).key = key
  · left
    obtain ⟨i, hi, rfl⟩ := hex
    obtain ⟨t, hremove, ht⟩ := Probe.remove_holds h.holds hroom hi ((h.hit_iff hi).2 rfl) (h.hit_only hi)
    refine ⟨i, hi, rfl, t, ?_, ht⟩
    rw [hashRemove, show hash (c.nodes i).key = home hash c i from rfl, hremove, Option.map_some]
  · right
    push Not at hex
    refine ⟨hex, ?_⟩
    have hnone : ∀ i ∈ entries c, c.hit key i = false := by
      intro i hi
      rw [Bool.eq_false_iff]
      exact fun hhit => hex i hi ((h.hit_iff hi).1 hhit)
    rw [hashRemove, Probe.remove_absent h.holds hnone, Option.map_some]
    rfl

/-- fewer entries than slots: some slot stays empty -/
theorem exists_empty (hroom : ∃ s < hashSize, c.hashTable s = -1) {t : ℕ → ℤ} {S : Set ℤ} (hsub : S ⊆ entries c)
    (ht : Probe.Stores hashSize (-1) t S) : ∃ s < hashSize, t s = -1 := by
  obtain ⟨s, hs, hempty⟩ := hroom
  have hmem : ∀ i ∈ S, i ∈ ((List.range hashSize).filter fun s => c.hashTable s ≠ -1).map c.hashTable := by
    intro i hi
    obtain ⟨s', hs', hsi⟩ := hsub hi
    refine List.mem_map.2 ⟨s', List.mem_filter.2 ⟨List.mem_range.2 hs'.1, ?_⟩, hsi⟩
    exact decide_eq_true hs'.2
  apply ht.exists_empty hmem
  rw [List.length_map]
  calc ((List.range hashSize).filter fun s => c.hashTable s ≠ -1).length
      < (List.range hashSize).length := by
        rw [List.length_filter_lt_length_iff_exists]
        exact ⟨s, List.mem_range.2 hs, by simp [hempty]⟩
    _ = hashSize := List.length_range

/-- **Removal.** For any hash function and any `Probed` table with an empty slot, `hash_remove` comes to an end. It answers
true exactly if a slot holds a node with the key; the table is `Probed` again, with an empty slot; the key is not found
afterwards; and every other key is found as before: at the same node, or not at all. -/
theorem hashRemove_spec (hash : UInt32 → ℕ) (c : Cache) (key : UInt32) (h : Probed hash c)
    (hroom : ∃ s < hashSize, c.hashTable s = -1) :
    ∃ t found, hashRemove hash c key = some (c.setTable t, found) ∧
      (found = true ↔ ∃ s, Occupied c s ∧ keyAt c s = key) ∧ Probed hash (c.setTable t) ∧
      (∃ s < hashSize, t s = -1) ∧ hashLookupNode hash (c.setTable t) key = -1 ∧
      ∀ k ≠ key, hashLookupNode hash (c.setTable t) k = hashLookupNode hash c k := by
  rcases hashRemove_cases h hroom key with ⟨i, hi, hkey, t, hremove, ht⟩ | ⟨hno, hremove⟩
  · have hsub : entries c \ {i} ⊆ entries c := Set.sdiff_subset
    have hafter := fun k => lookup_spec h hsub ht k
    have hbefore := fun k => lookup_spec h (Set.Subset.refl (entries c)) h.holds k
    refine ⟨t, true, hremove, ?_, h.of_holds hsub ht, exists_empty hroom hsub ht.toStores, ?_, fun k hk => ?_⟩
    · obtain ⟨s, hs, hsi⟩ := hi
      refine ⟨fun _ => ⟨s, hs, ?_⟩, fun _ => rfl⟩
      rw [keyAt, hsi, hkey]
    · apply (hafter key).2
      intro j hj hjkey
      exact hj.2 (h.key_inj hj.1 hi (hjkey.trans hkey.symm))
    · -- the node of another key, if there is one, is in both tables
      by_cases hex : ∃ j ∈ entries c, (c.nodes j).key = k
      · obtain ⟨j, hj, hjkey⟩ := hex
        have hne : j ∈ entries c \ {i} := by
          refine ⟨hj, fun hji => hk ?_⟩
          rw [← hjkey, ← hkey, Set.mem_singleton_iff.1 hji]
        exact ((hafter k).1 j hne hjkey).trans ((hbefore k).1 j hj hjkey).symm
      · push Not at hex
        exact ((hafter k).2 fun j hj => hex j hj.1).trans ((hbefore k).2 hex).symm
  · refine ⟨c.hashTable, false, hremove, ?_, h, hroom, ?_, fun k _ => rfl⟩
    · refine ⟨fun hfalse => absurd hfalse Bool.false_ne_true, fun hthere => ?_⟩
      obtain ⟨s, hs, hskey⟩ := hthere
      exact absurd hskey (hno _ ⟨s, hs, rfl⟩)
    · exact (lookup_spec h (Set.Subset.refl (entries c)) h.holds key).2 hno

/-- two nodes with the same home, the last slot: the second one lies behind the wrap -/
def wrapped : Cache :=
  { Cache.lruInit with
    nodes := fun i => ⟨if i = 0 then 5 else 7, [], 0, true, -1, -1⟩
    hashTable := fun s => if s = 130 then 0 else if s = 0 then 1 else -1 }

theorem occupied_wrapped {s : ℕ} (h : Occupied wrapped s) : s = 130 ∨ s = 0 := by
  by_contra hother
  push Not at hother
  apply h.2
  simp [wrapped, hother]

theorem wrapped_probed : Probed (fun _ => 130) wrapped := by
  refine ⟨fun _ _ => rfl, fun s s' hs hs' heq => ?_, fun s s' hs hs' heq => ?_, fun s hs => ?_⟩
  · rcases occupied_wrapped hs with rfl | rfl <;> rcases occupied_wrapped hs' with rfl | rfl <;>
      first | rfl | exact absurd heq (by decide)
  · rcases occupied_wrapped hs with rfl | rfl <;> rcases occupied_wrapped hs' with rfl | rfl <;>
      first | rfl | exact absurd heq (by decide)
  · rcases occupied_wrapped hs with rfl | rfl
    · exact ⟨0, by decide, rfl, by decide⟩
    · exact ⟨1, by decide, rfl, by decide⟩

theorem hashRemove_spec_wrapped : ∃ t found, hashRemove (fun _ => 130) wrapped 5 = some (wrapped.setTable t, found) ∧
    found = true ∧ hashLookupNode (fun _ => 130) (wrapped.setTable t) 7 = 1 := by
  obtain ⟨t, found, hremove, hfound, -, -, -, hothers⟩ :=
    hashRemove_spec (fun _ => 130) wrapped 5 wrapped_probed ⟨1, by decide, rfl⟩
  refine ⟨t, found, hremove, hfound.2 ⟨130, ⟨by decide, by decide⟩, rfl⟩, ?_⟩
  rw [hothers 7 (by decide)]
  decide

end InterviewPrep.LruCache.PacketHash
