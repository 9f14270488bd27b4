/-
The reference least-recently-used cache: a list of (key, value) pairs, most recently used first.

`Lru cap κ ν` carries its two invariants: at most `cap` pairs, no key twice. The operations are `find`, `touch` (a found
pair moves to the front), `store` (replace and move to the front, or drop the last pair of a full cache and add) and
`erase`.

An implementation keeps its nodes in recency order and reads a pair off each node. `find_map`, `erase_map` and
`touch_map` say what the operations do to such a list of nodes, cut at the node in question. `erase_leaves`, `mem_touch`
and `store_leaves` say which pairs an operation can lose.

`Recent.use` is the recency order of keys without a bound; `take_use_of_mem` and `take_use_of_notMem` say how its first
`n` keys change, which is what a cache of `n` keys does.
-/
import Mathlib.Tactic

namespace InterviewPrep

/-- pairs in recency order -/
structure Lru (cap : ℕ) (κ ν : Type) where
  entries : List (κ × ν)
  distinct : (entries.map Prod.fst).Nodup
  bounded : entries.length ≤ cap

namespace Lru

variable {cap : ℕ} {κ ν : Type}

def empty : Lru cap κ ν := ⟨[], List.nodup_nil, Nat.zero_le cap⟩

theorem keys_sublist {xs ys : List (κ × ν)} (h : xs.Sublist ys) (hnd : (ys.map Prod.fst).Nodup) :
    (xs.map Prod.fst).Nodup := hnd.sublist (h.map Prod.fst)

theorem nodup_front {xs : List (κ × ν)} {k : κ} {v : ν} (hk : k ∉ xs.map Prod.fst)
    (hnd : (xs.map Prod.fst).Nodup) : (((k, v) :: xs).map Prod.fst).Nodup :=
  List.nodup_cons.2 ⟨hk, hnd⟩

/-! ## Operations -/

variable [DecidableEq κ]

def without (xs : List (κ × ν)) (k : κ) : List (κ × ν) := xs.filter fun e => e.1 ≠ k

theorem notMem_without (xs : List (κ × ν)) (k : κ) : k ∉ (without xs k).map Prod.fst := by
  simp [without]

theorem length_without_lt {xs : List (κ × ν)} {k : κ} (h : k ∈ xs.map Prod.fst) :
    (without xs k).length < xs.length := by
  obtain ⟨e, he, rfl⟩ := List.mem_map.1 h
  exact List.length_filter_lt_length_iff_exists.2 ⟨e, he, by simp⟩

/-- value of a key -/
def find (c : Lru cap κ ν) (k : κ) : Option ν := (c.entries.find? fun e => e.1 = k).map Prod.snd

def erase (c : Lru cap κ ν) (k : κ) : Lru cap κ ν where
  entries := without c.entries k
  distinct := keys_sublist List.filter_sublist c.distinct
  bounded := (List.length_filter_le ..).trans c.bounded

/-- a present key gets the value and the first place -/
def promote (c : Lru cap κ ν) (k : κ) (v : ν) (h : k ∈ c.entries.map Prod.fst) : Lru cap κ ν where
  entries := (k, v) :: without c.entries k
  distinct := nodup_front (notMem_without c.entries k) (keys_sublist List.filter_sublist c.distinct)
  bounded := (length_without_lt h).trans_le c.bounded

/-- an absent key gets the first place, at the cost of the last pair of a full cache -/
def enter [NeZero cap] (c : Lru cap κ ν) (k : κ) (v : ν) (h : k ∉ c.entries.map Prod.fst) : Lru cap κ ν where
  entries := (k, v) :: if c.entries.length = cap then c.entries.dropLast else c.entries
  distinct := by
    split_ifs
    · exact nodup_front (fun hk => h (((List.dropLast_sublist _).map _).subset hk))
        (keys_sublist (List.dropLast_sublist _) c.distinct)
    · exact nodup_front h c.distinct
  bounded := by
    have hb := c.bounded
    have hcap := NeZero.pos cap
    split_ifs <;> simp <;> omega

def store [NeZero cap] (c : Lru cap κ ν) (k : κ) (v : ν) : Lru cap κ ν :=
  if h : k ∈ c.entries.map Prod.fst then c.promote k v h else c.enter k v h

/-- a present key gets the first place and keeps its value -/
def touch (c : Lru cap κ ν) (k : κ) : Lru cap κ ν :=
  if h : k ∈ c.entries.map Prod.fst then
    match c.find k with
    | none => c
    | some v => c.promote k v h
  else c

/-! ## Nodes in recency order -/

variable {ι : Type} {f : ι → κ × ν} {ids l r : List ι} {i : ι} {c : Lru cap κ ν}

theorem find_map (h : c.entries = ids.map f) (hi : i ∈ ids) : c.find (f i).1 = some (f i).2 := by
  have hnd := c.distinct
  rw [h, List.map_map] at hnd
  have hfound : c.entries.find? (fun e => e.1 = (f i).1) = some (f i) := by
    cases hfind : c.entries.find? (fun e => e.1 = (f i).1) with
    | none =>
      have hall := List.find?_eq_none.1 hfind (f i) (h ▸ List.mem_map_of_mem hi)
      simp at hall
    | some e =>
      have hmem := List.mem_of_find?_eq_some hfind
      have hkey : e.1 = (f i).1 := by simpa using List.find?_some hfind
      rw [h] at hmem
      obtain ⟨j, hj, rfl⟩ := List.mem_map.1 hmem
      rw [List.inj_on_of_nodup_map hnd hj hi hkey]
  rw [find, hfound, Option.map_some]

theorem find_absent {k : κ} (h : c.entries = ids.map f) (hk : ∀ i ∈ ids, (f i).1 ≠ k) : c.find k = none := by
  rw [find, Option.map_eq_none_iff, List.find?_eq_none, h]
  intro e he
  obtain ⟨i, hi, rfl⟩ := List.mem_map.1 he
  simpa using hk i hi

omit [DecidableEq κ] in
theorem key_mem (h : c.entries = ids.map f) (hi : i ∈ ids) : (f i).1 ∈ c.entries.map Prod.fst := by
  rw [h]
  exact List.mem_map_of_mem (List.mem_map_of_mem hi)

omit [DecidableEq κ] in
theorem key_notMem {k : κ} (h : c.entries = ids.map f) (hk : ∀ i ∈ ids, (f i).1 ≠ k) :
    k ∉ c.entries.map Prod.fst := by
  rw [h, List.map_map]
  intro hmem
  obtain ⟨i, hi, heq⟩ := List.mem_map.1 hmem
  exact hk i hi heq

theorem without_map (h : c.entries = (l ++ i :: r).map f) : without c.entries (f i).1 = (l ++ r).map f := by
  have hnd := c.distinct
  rw [h, List.map_map] at hnd
  have hother : ∀ j ∈ l ++ r, ((f j).1 ≠ (f i).1) := by
    have hperm : (l ++ i :: r).Perm (i :: (l ++ r)) := List.perm_middle
    have hnd' := (hperm.map (Prod.fst ∘ f)).nodup_iff.1 hnd
    rw [List.map_cons, List.nodup_cons] at hnd'
    intro j hj heq
    exact hnd'.1 (List.mem_map.2 ⟨j, hj, heq⟩)
  have hkeep : ∀ ys : List ι, (∀ j ∈ ys, (f j).1 ≠ (f i).1) →
      (ys.map f).filter (fun e => e.1 ≠ (f i).1) = ys.map f := by
    intro ys hys
    rw [List.filter_eq_self]
    intro e he
    obtain ⟨j, hj, rfl⟩ := List.mem_map.1 he
    simpa using hys j hj
  rw [without, h, List.map_append, List.map_cons, List.filter_append, List.filter_cons_of_neg (by simp),
    hkeep l fun j hj => hother j (List.mem_append_left r hj),
    hkeep r fun j hj => hother j (List.mem_append_right l hj), List.map_append]

theorem erase_map (h : c.entries = (l ++ i :: r).map f) : (c.erase (f i).1).entries = (l ++ r).map f :=
  without_map h

theorem touch_map (h : c.entries = (l ++ i :: r).map f) : (c.touch (f i).1).entries = (i :: (l ++ r)).map f := by
  have hi : i ∈ l ++ i :: r := by simp
  rw [touch, dif_pos (key_mem h hi), find_map h hi]
  simp only [promote, without_map h, List.map_cons]

theorem store_present [NeZero cap] (h : c.entries = (l ++ i :: r).map f) (v : ν) :
    (c.store (f i).1 v).entries = ((f i).1, v) :: (l ++ r).map f := by
  have hi : i ∈ l ++ i :: r := by simp
  rw [store, dif_pos (key_mem h hi)]
  simp only [promote, without_map h]

theorem store_absent [NeZero cap] {k : κ} (h : c.entries = ids.map f) (hk : ∀ i ∈ ids, (f i).1 ≠ k) (v : ν) :
    (c.store k v).entries = (k, v) :: if ids.length = cap then ids.dropLast.map f else ids.map f := by
  rw [store, dif_neg (key_notMem h hk)]
  simp only [enter, h, List.length_map, List.map_dropLast]

/-! ## What leaves -/

variable {k : κ} {v : ν} {e : κ × ν}

theorem find_eq_some : c.find k = some v ↔ (k, v) ∈ c.entries := by
  have hid : c.entries = c.entries.map id := (List.map_id _).symm
  constructor
  · intro hfind
    obtain ⟨e, he, rfl⟩ := Option.map_eq_some_iff.1 hfind
    obtain rfl : e.1 = k := by simpa using List.find?_some he
    exact List.mem_of_find?_eq_some he
  · intro hmem
    exact find_map hid hmem

theorem mem_without (hmem : e ∈ c.entries) (hkey : e.1 ≠ k) : e ∈ without c.entries k :=
  List.mem_filter.2 ⟨hmem, by simpa using hkey⟩

theorem erase_leaves (hmem : e ∈ c.entries) (hgone : e ∉ (c.erase k).entries) : e.1 = k := by
  by_contra hkey
  exact hgone (mem_without hmem hkey)

theorem mem_touch (hmem : e ∈ c.entries) : e ∈ (c.touch k).entries := by
  unfold touch
  split_ifs
  · cases hfind : c.find k with
    | none => exact hmem
    | some v =>
      rcases eq_or_ne e.1 k with rfl | hkey
      · have hsame : c.find e.1 = some e.2 := find_eq_some.2 hmem
        obtain rfl : v = e.2 := Option.some.inj (hfind.symm.trans hsame)
        exact List.mem_cons_self
      · exact List.mem_cons_of_mem _ (mem_without hmem hkey)
  · exact hmem

/-- a store replaces the pair of its key, or drops the last pair of a full cache -/
theorem store_leaves [NeZero cap] (hmem : e ∈ c.entries) (hgone : e ∉ (c.store k v).entries) :
    e.1 = k ∨ (k ∉ c.entries.map Prod.fst ∧ c.entries.length = cap ∧ c.entries.getLast? = some e) := by
  unfold store at hgone
  split_ifs at hgone with hk
  · left
    by_contra hkey
    exact hgone (List.mem_cons_of_mem _ (mem_without hmem hkey))
  · right
    have hdrop : e ∉ if c.entries.length = cap then c.entries.dropLast else c.entries :=
      fun h => hgone (List.mem_cons_of_mem _ h)
    split_ifs at hdrop with hfull
    · have hne : c.entries ≠ [] := List.ne_nil_of_mem hmem
      have hlast := List.dropLast_append_getLast hne
      rw [← hlast, List.mem_append, List.mem_singleton] at hmem
      refine ⟨hk, hfull, ?_⟩
      rw [List.getLast?_eq_getLast_of_ne_nil hne, hmem.resolve_left hdrop]
    · exact absurd hmem hdrop

end Lru

/-! ## Keys in recency order, without a bound -/

namespace Recent

variable {κ : Type} [DecidableEq κ] {xs : List κ} {k : κ} {n : ℕ}

/-- `k` becomes the most recent key -/
def use (xs : List κ) (k : κ) : List κ := k :: xs.erase k

theorem nodup_use (h : xs.Nodup) : (use xs k).Nodup := List.nodup_cons.2 ⟨h.not_mem_erase, h.erase k⟩

/-- the `n` most recent keys when one of them is used again -/
theorem take_use_of_mem (hk : k ∈ xs.take n) : (use xs k).take n = use (xs.take n) k := by
  have hlen : ((xs.take n).erase k).length = (xs.take n).length - 1 := List.length_erase_of_mem hk
  have hle : (xs.take n).length ≤ n := List.length_take_le n xs
  have hpos : 0 < (xs.take n).length := List.length_pos_of_mem hk
  obtain ⟨m, rfl⟩ : ∃ m, n = m + 1 := ⟨n - 1, by omega⟩
  have hcut : xs.erase k = (xs.take (m + 1)).erase k ++ xs.drop (m + 1) := by
    rw [← List.erase_append_left _ hk, List.take_append_drop]
  rw [use, use, List.take_succ_cons, hcut, List.take_append, List.take_of_length_le (by omega)]
  have hrest : (xs.drop (m + 1)).take (m - ((xs.take (m + 1)).erase k).length) = [] := by
    rw [List.take_eq_nil_iff, List.drop_eq_nil_iff]
    rw [List.length_take] at hlen hle hpos
    omega
  rw [hrest, List.append_nil]

/-- the `n` most recent keys when another one is used: the last of `n` keys drops out -/
theorem take_use_of_notMem (hn : 0 < n) (hk : k ∉ xs.take n) :
    (use xs k).take n = k :: if (xs.take n).length = n then (xs.take n).dropLast else xs.take n := by
  obtain ⟨m, rfl⟩ : ∃ m, n = m + 1 := ⟨n - 1, by omega⟩
  have hcut : xs.erase k = xs.take (m + 1) ++ (xs.drop (m + 1)).erase k := by
    rw [← List.erase_append_right _ hk, List.take_append_drop]
  rw [use, List.take_succ_cons, hcut]
  split_ifs with hfull
  · rw [List.take_append_of_le_length (by omega), List.dropLast_eq_take, hfull, Nat.add_sub_cancel]
  · have hshort : xs.length ≤ m := by
      rw [List.length_take] at hfull
      omega
    rw [List.drop_eq_nil_of_le (by omega), List.erase_nil, List.append_nil, List.take_of_length_le (i := m + 1) (by omega),
      List.take_of_length_le hshort]

end Recent

end InterviewPrep
