/-
The randomized set of pureStorage/getRandom.cpp.

The elements are in the vector `list`, and `indexMap`, a table of 100 chained buckets, gives the position of each. `remove` puts
the last element into the place of the one that leaves. A position is stored in an `int`. An access outside `buckets` or
`list` is a fault (`none`); `hash` of INT_MIN is negative, since `abs` leaves it as it is.

- `refines_set`: as long as no more than 2 ^ 31 elements are in the set, calls with values other than INT_MIN are answered like
  those on a mathematical set, and after each of them `list` and `indexMap` hold it (`Holds`);
- `position_wraps`: the position of one element more is not what `find` gives;
- `getRandom_once`: each element of the set is what `getRandom` returns for exactly one draw;
- `indices_inRange_iff`: every index into `buckets` of a run, with any number of elements, is in range exactly if no call has
  the value INT_MIN.
-/
import InterviewPrep.Core.Machine
import InterviewPrep.Core.Numeral
import InterviewPrep.Core.Chained

namespace InterviewPrep.RandomizedSet

open Numeral (int int_of_small)

/-! ## Model -/

structure Node where
  key : Int32
  value : ℤ

/-- a `CustomHashTable` -/
abbrev Buckets := List (List Node)

def capacity : ℕ := 100

def hash (key : Int32) : ℤ := (int |key.toInt|).tmod capacity

namespace CustomHashTable

/-- `buckets[index]` -/
def bucket (buckets : Buckets) (index : ℤ) : Option (List Node) := if 0 ≤ index then buckets[index.toNat]? else none

def insert (buckets : Buckets) (key : Int32) (value : ℤ) : Option Buckets :=
  (bucket buckets (hash key)).map fun chain => buckets.set (hash key).toNat (Chained.put Node.key ⟨key, value⟩ chain)

def find (buckets : Buckets) (key : Int32) : Option (Option ℤ) :=
  (bucket buckets (hash key)).map fun chain => (Chained.find Node.key key chain).map Node.value

/-- what `erase` returns is not used -/
def erase (buckets : Buckets) (key : Int32) : Option Buckets :=
  (bucket buckets (hash key)).map fun chain => buckets.set (hash key).toNat (Chained.erase Node.key key chain)

end CustomHashTable

/-- a `RandomizedSet` -/
structure State where
  list : List Int32
  indexMap : Buckets

def init : State := ⟨[], List.replicate capacity []⟩

namespace State

def insert (s : State) (val : Int32) : Option (State × Bool) :=
  (CustomHashTable.find s.indexMap val).bind fun
    | some _ => some (s, false)
    | none =>
      (CustomHashTable.insert s.indexMap val (int s.list.length)).map fun indexMap =>
        (⟨s.list ++ [val], indexMap⟩, true)

/-- `list[index] = val` -/
def write (list : List Int32) (index : ℤ) (val : Int32) : Option (List Int32) :=
  if 0 ≤ index ∧ index < list.length then some (list.set index.toNat val) else none

def remove (s : State) (val : Int32) : Option (State × Bool) :=
  (CustomHashTable.find s.indexMap val).bind fun
    | none => some (s, false)
    | some index => do
      let lastVal ← s.list.getLast?
      let list ← write s.list index lastVal
      let indexMap ← CustomHashTable.insert s.indexMap lastVal index
      let list := list.dropLast
      let indexMap ← CustomHashTable.erase indexMap val
      return (⟨list, indexMap⟩, true)

/-- the distribution draws `index` between 0 and `list.size() - 1` -/
def getRandom (s : State) (index : ℕ) : Option Int32 := s.list[index]?

end State

inductive Call where
  | insert (val : Int32)
  | remove (val : Int32)
  deriving DecidableEq

def Call.val : Call → Int32
  | insert val => val
  | remove val => val

def step (s : State) : Call → Option (State × Bool)
  | .insert val => s.insert val
  | .remove val => s.remove val

/-- a mathematical set -/
def refSet (S : Finset Int32) : Call → Finset Int32 × Bool
  | .insert val => (insert val S, decide (val ∉ S))
  | .remove val => (S.erase val, decide (val ∈ S))

/-- `list` and `indexMap` hold the set -/
structure Holds (s : State) (S : Finset Int32) : Prop where
  nodup : s.list.Nodup
  elements : ∀ v, v ∈ s.list ↔ v ∈ S
  find : ∀ v, v ≠ Int32.minValue → ∃ r, CustomHashTable.find s.indexMap v = some r ∧
    ∀ i, r = some i ↔ 0 ≤ i ∧ s.list[i.toNat]? = some v
  chains : ∀ chain ∈ s.indexMap, (chain.map Node.key).Nodup

/-! ## The table -/

/-- a table of 100 chains in which no key has two nodes -/
structure Sound (buckets : Buckets) : Prop where
  length : buckets.length = capacity
  chains : ∀ chain ∈ buckets, (chain.map Node.key).Nodup

variable {buckets : Buckets} {key val : Int32} {s : State} {S : Finset Int32}

/-- the bucket of a key -/
def home (key : Int32) : ℕ := (hash key).toNat

def lookup (buckets : Buckets) (key : Int32) : Option ℤ :=
  (Chained.lookup Node.key home buckets key).map Node.value

theorem hash_range (h : key ≠ Int32.minValue) : 0 ≤ hash key ∧ hash key < capacity := by
  have hlow := key.le_toInt
  have hhigh := key.toInt_lt
  have hne : key.toInt ≠ -2 ^ 31 := fun heq => h (Int32.toInt.inj heq)
  have habs : |key.toInt| < 2 ^ 31 := abs_lt.2 ⟨by omega, hhigh⟩
  have hnonneg := abs_nonneg key.toInt
  unfold hash
  rw [int_of_small (by omega) habs]
  exact ⟨Int.tmod_nonneg _ hnonneg, Int.tmod_lt_of_pos _ (by decide)⟩

theorem home_lt (hs : Sound buckets) (h : key ≠ Int32.minValue) : home key < buckets.length := by
  have hrange := hash_range h
  rw [hs.length, home]
  omega

theorem bucket_hash (hs : Sound buckets) (h : key ≠ Int32.minValue) :
    CustomHashTable.bucket buckets (hash key) = some (buckets.getD (home key) []) := by
  rw [CustomHashTable.bucket, if_pos (hash_range h).1, ← home, List.getD_eq_getElem?_getD,
    List.getElem?_eq_getElem (home_lt hs h), Option.getD_some]

theorem nodup_bucket (hs : Sound buckets) (i : ℕ) : ((buckets.getD i []).map Node.key).Nodup := by
  rw [List.getD_eq_getElem?_getD]
  cases h : buckets[i]? with
  | none => exact List.nodup_nil
  | some chain => exact hs.chains chain (List.mem_of_getElem? h)

theorem sound_set (hs : Sound buckets) (i : ℕ) {chain : List Node} (hnodup : (chain.map Node.key).Nodup) :
    Sound (buckets.set i chain) := by
  refine ⟨by rw [List.length_set, hs.length], fun c hc => ?_⟩
  rcases List.mem_or_eq_of_mem_set hc with hc | rfl
  · exact hs.chains c hc
  · exact hnodup

theorem find_eq (hs : Sound buckets) (h : key ≠ Int32.minValue) :
    CustomHashTable.find buckets key = some (lookup buckets key) := by
  rw [CustomHashTable.find, bucket_hash hs h]
  rfl

theorem insert_spec (hs : Sound buckets) (h : key ≠ Int32.minValue) (value : ℤ) :
    ∃ buckets', CustomHashTable.insert buckets key value = some buckets' ∧ Sound buckets' ∧
      ∀ k, lookup buckets' k = if k = key then some value else lookup buckets k := by
  have hnodup := Chained.nodup_put (e := ⟨key, value⟩) (nodup_bucket hs (home key))
  refine ⟨_, by rw [CustomHashTable.insert, bucket_hash hs h, Option.map_some, ← home], sound_set hs _ hnodup, fun k => ?_⟩
  rw [lookup, Chained.lookup_set (home_lt hs h) (Chained.find_put _ _)]
  split_ifs <;> rfl

theorem erase_spec (hs : Sound buckets) (h : key ≠ Int32.minValue) :
    ∃ buckets', CustomHashTable.erase buckets key = some buckets' ∧ Sound buckets' ∧
      ∀ k, lookup buckets' k = if k = key then none else lookup buckets k := by
  have hnodup := nodup_bucket hs (home key)
  refine ⟨_, by rw [CustomHashTable.erase, bucket_hash hs h, Option.map_some, ← home],
    sound_set hs _ (Chained.nodup_erase hnodup key), fun k => ?_⟩
  rw [lookup, Chained.lookup_set (home_lt hs h) (Chained.find_erase hnodup key)]
  split_ifs <;> rfl

/-! ## Steps -/

/-- the table gives the positions in `list` -/
structure Inv (s : State) : Prop where
  table : Sound s.indexMap
  valid : ∀ v ∈ s.list, v ≠ Int32.minValue
  index : ∀ v, v ≠ Int32.minValue → ∀ i, lookup s.indexMap v = some i ↔ 0 ≤ i ∧ s.list[i.toNat]? = some v

theorem index_natCast (h : Inv s) (hval : val ≠ Int32.minValue) (i : ℕ) :
    lookup s.indexMap val = some (i : ℤ) ↔ s.list[i]? = some val := by
  rw [h.index val hval, Int.toNat_natCast, and_iff_right (Int.natCast_nonneg i)]

theorem lookup_eq_none (h : Inv s) (hval : val ≠ Int32.minValue) : lookup s.indexMap val = none ↔ val ∉ s.list := by
  rw [Option.eq_none_iff_forall_ne_some, List.mem_iff_getElem?]
  push Not
  constructor
  · exact fun hnone i hi => hnone i ((index_natCast h hval i).2 hi)
  · exact fun hnone i hi => hnone i.toNat ((h.index val hval i).1 hi).2

theorem nodup_list (h : Inv s) : s.list.Nodup := by
  rw [List.nodup_iff_getElem?_ne_getElem?]
  intro i j hij hj heq
  have hjv : s.list[j]? = some s.list[j] := List.getElem?_eq_getElem hj
  have hval := h.valid _ (List.getElem_mem hj)
  have hi := (index_natCast h hval i).2 (heq.trans hjv)
  have hj' := (index_natCast h hval j).2 hjv
  have := Option.some.inj (hi.symm.trans hj')
  omega

theorem holds_of_inv (h : Inv s) (helements : ∀ v, v ∈ s.list ↔ v ∈ S) : Holds s S :=
  ⟨nodup_list h, helements, fun v hv => ⟨_, find_eq h.table hv, h.index v hv⟩, h.table.chains⟩

theorem inv_init : Inv init := by
  refine ⟨⟨List.length_replicate, fun chain hc => ?_⟩, fun v hv => absurd hv List.not_mem_nil, fun v _ i => ?_⟩
  · rw [List.eq_of_mem_replicate hc]
    exact List.nodup_nil
  · rw [lookup, init, Chained.lookup_replicate]
    exact iff_of_false (fun h => by cases h) fun h => by cases h.2

theorem insert_present (h : Inv s) (hval : val ≠ Int32.minValue) (hmem : val ∈ s.list) : s.insert val = some (s, false) := by
  obtain ⟨i, hi⟩ := Option.ne_none_iff_exists'.1 (mt (lookup_eq_none h hval).1 (not_not.2 hmem))
  rw [State.insert, find_eq h.table hval, hi]
  rfl

theorem insert_absent (hs : Sound s.indexMap) (hval : val ≠ Int32.minValue) (hnone : lookup s.indexMap val = none) :
    ∃ s', s.insert val = some (s', true) ∧ Sound s'.indexMap ∧ s'.list = s.list ++ [val] ∧
      ∀ k, lookup s'.indexMap k = if k = val then some (int s.list.length) else lookup s.indexMap k := by
  obtain ⟨indexMap, hinsert, hsound, hlookup⟩ := insert_spec hs hval (int s.list.length)
  refine ⟨⟨s.list ++ [val], indexMap⟩, ?_, hsound, rfl, hlookup⟩
  rw [State.insert, find_eq hs hval, hnone, Option.bind_some]
  dsimp only
  rw [hinsert, Option.map_some]

/-- the positions after an element is added -/
theorem getElem?_concat {l : List Int32} {x v : Int32} {n : ℕ} :
    (l ++ [x])[n]? = some v ↔ l[n]? = some v ∨ (n = l.length ∧ x = v) := by
  rw [List.getElem?_append]
  split_ifs with hlt
  · exact ⟨.inl, fun h => h.resolve_right fun h => by omega⟩
  · rw [List.getElem?_eq_none (Nat.le_of_not_lt hlt), List.getElem?_singleton]
    split_ifs with hzero
    · rw [Option.some_inj]
      exact ⟨fun h => .inr ⟨by omega, h⟩, fun h => (h.resolve_left (by simp)).2⟩
    · exact iff_of_false (by simp) fun h => by
        rcases h with h | h
        · cases h
        · omega

/-- the positions after the last element, `x`, has been put in the place of another -/
theorem getElem?_swapped {l : List Int32} {x v : Int32} {i n : ℕ} (hi : i < l.length) :
    (l.set i x).dropLast[n]? = some v ↔ n + 1 < l.length ∧ ((n = i ∧ x = v) ∨ (n ≠ i ∧ l[n]? = some v)) := by
  rw [List.getElem?_dropLast, List.length_set]
  split_ifs with hlt
  · rw [and_iff_right (by omega), List.getElem?_set]
    by_cases hn : i = n
    · rw [if_pos hn, if_pos hi, Option.some_inj]
      exact ⟨fun h => .inl ⟨hn.symm, h⟩, fun h => h.elim And.right fun h => absurd hn.symm h.1⟩
    · rw [if_neg hn]
      exact ⟨fun h => .inr ⟨Ne.symm hn, h⟩, fun h => h.elim (fun h => absurd h.1.symm hn) And.right⟩
  · exact iff_of_false (by simp) fun h => by omega

/-- the new element is at the end, and its position is still an `int` -/
theorem insert_inv (h : Inv s) (hval : val ≠ Int32.minValue) (hmem : val ∉ s.list) (hroom : s.list.length < 2 ^ 31) :
    ∃ s', s.insert val = some (s', true) ∧ Inv s' ∧ s'.list = s.list ++ [val] := by
  obtain ⟨s', hinsert, hsound, hlist, hlookup⟩ := insert_absent h.table hval ((lookup_eq_none h hval).2 hmem)
  have hint : int s.list.length = s.list.length := int_of_small (by omega) (by omega)
  refine ⟨s', hinsert, ⟨hsound, fun v hv => ?_, fun v hv i => ?_⟩, hlist⟩
  · rw [hlist] at hv
    rcases List.mem_append.1 hv with hv | hv
    · exact h.valid v hv
    · exact List.mem_singleton.1 hv ▸ hval
  · rw [hlookup, hlist, hint, getElem?_concat]
    by_cases hvv : v = val
    · have hne : s.list[i.toNat]? ≠ some v := fun heq => hmem (hvv ▸ List.mem_of_getElem? heq)
      rw [if_pos hvv, Option.some_inj, or_iff_right hne, and_iff_left hvv.symm]
      omega
    · rw [if_neg hvv, h.index v hv, or_iff_left fun heq => hvv heq.2.symm]

theorem remove_absent (h : Inv s) (hval : val ≠ Int32.minValue) (hmem : val ∉ s.list) : s.remove val = some (s, false) := by
  rw [State.remove, find_eq h.table hval, (lookup_eq_none h hval).2 hmem]
  rfl

section Swapped

variable {l : List Int32} {i : ℕ} {x : Int32}

/-- the element leaves, the last one is in its place, and the others are where they were -/
theorem swapped_position (hnodup : l.Nodup) (hi : l[i]? = some val) (hlast : l[l.length - 1]? = some x) (v : Int32) (n : ℕ) :
    (l.set i x).dropLast[n]? = some v ↔ v ≠ val ∧ if v = x then n = i else l[n]? = some v := by
  obtain ⟨hilt, -⟩ := List.getElem?_eq_some_iff.1 hi
  have hunique : ∀ {n m : ℕ} {w : Int32}, l[n]? = some w → l[m]? = some w → n = m := by
    intro n m w hn hm
    obtain ⟨hlt, -⟩ := List.getElem?_eq_some_iff.1 hn
    exact (List.getElem?_inj hlt hnodup).1 (hn.trans hm.symm)
  rw [getElem?_swapped hilt]
  constructor
  · intro h
    obtain ⟨hlt, ⟨rfl, rfl⟩ | ⟨hne, hn⟩⟩ := h
    · refine ⟨fun heq => ?_, by rw [if_pos rfl]⟩
      have := hunique (heq ▸ hlast) hi
      omega
    · refine ⟨fun heq => hne (hunique (heq ▸ hn) hi), ?_⟩
      rw [if_neg fun heq => ?_]
      · exact hn
      · have := hunique (heq ▸ hn) hlast
        omega
  · intro h
    obtain ⟨hne, h⟩ := h
    split_ifs at h with hx
    · have hbefore : i ≠ l.length - 1 := fun heq => hne (by
        rw [heq, hlast, Option.some_inj] at hi
        exact hx.trans hi)
      exact ⟨by omega, .inl ⟨h, hx.symm⟩⟩
    · obtain ⟨hlt, -⟩ := List.getElem?_eq_some_iff.1 h
      have hbefore : n ≠ l.length - 1 := fun heq => hx (by
        rw [heq, hlast, Option.some_inj] at h
        exact h.symm)
      have hni : n ≠ i := fun heq => hne (by
        rw [heq, hi, Option.some_inj] at h
        exact h.symm)
      exact ⟨by omega, .inr ⟨hni, h⟩⟩

theorem mem_swapped (hnodup : l.Nodup) (hi : l[i]? = some val) (hlast : l[l.length - 1]? = some x) (v : Int32) :
    v ∈ (l.set i x).dropLast ↔ v ≠ val ∧ v ∈ l := by
  rw [List.mem_iff_getElem?, List.mem_iff_getElem?]
  constructor
  · intro h
    obtain ⟨n, hn⟩ := h
    obtain ⟨hne, hpos⟩ := (swapped_position hnodup hi hlast v n).1 hn
    split_ifs at hpos with hx
    · exact ⟨hne, _, hx ▸ hlast⟩
    · exact ⟨hne, n, hpos⟩
  · intro h
    obtain ⟨hne, n, hn⟩ := h
    by_cases hx : v = x
    · exact ⟨i, (swapped_position hnodup hi hlast v i).2 ⟨hne, by rw [if_pos hx]⟩⟩
    · exact ⟨n, (swapped_position hnodup hi hlast v n).2 ⟨hne, by rwa [if_neg hx]⟩⟩

end Swapped

/-- the last element takes the place, also if it is the one that leaves -/
theorem remove_inv (h : Inv s) (hval : val ≠ Int32.minValue) (hmem : val ∈ s.list) :
    ∃ s', s.remove val = some (s', true) ∧ Inv s' ∧ ∀ v, v ∈ s'.list ↔ v ≠ val ∧ v ∈ s.list := by
  obtain ⟨i, hi⟩ := List.mem_iff_getElem?.1 hmem
  obtain ⟨hilt, -⟩ := List.getElem?_eq_some_iff.1 hi
  have hindex := (index_natCast h hval i).2 hi
  have hlastLt : s.list.length - 1 < s.list.length := by omega
  obtain ⟨x, hlastAt⟩ : ∃ x, s.list[s.list.length - 1]? = some x := ⟨_, List.getElem?_eq_getElem hlastLt⟩
  have hx := h.valid x (List.mem_of_getElem? hlastAt)
  obtain ⟨map₁, hinsert, hsound₁, hlookup₁⟩ := insert_spec h.table hx i
  obtain ⟨map₂, herase, hsound₂, hlookup₂⟩ := erase_spec hsound₁ hval
  have hremove : s.remove val = some (⟨(s.list.set i x).dropLast, map₂⟩, true) := by
    have hwrite : State.write s.list i x = some (s.list.set i x) := if_pos ⟨by omega, by omega⟩
    rw [State.remove, find_eq h.table hval, hindex, Option.bind_some]
    dsimp only
    rw [List.getLast?_eq_getElem?, hlastAt]
    simp only [Option.bind_eq_bind, Option.bind_some, hwrite, hinsert, herase]
    rfl
  have hmem' := mem_swapped (nodup_list h) hi hlastAt
  refine ⟨_, hremove, ⟨hsound₂, fun v hv => h.valid v ((hmem' v).1 hv).2, fun v hv k => ?_⟩, hmem'⟩
  rw [swapped_position (nodup_list h) hi hlastAt v k.toNat, hlookup₂, hlookup₁]
  by_cases hvv : v = val
  · rw [if_pos hvv]
    exact iff_of_false (by simp) fun h => h.2.1 hvv
  · rw [if_neg hvv, and_iff_right hvv]
    by_cases hvx : v = x
    · rw [if_pos hvx, if_pos hvx, Option.some_inj]
      omega
    · rw [if_neg hvx, if_neg hvx, h.index v hv]

/-! ## Runs -/

theorem length_eq_card (h : Inv s) (helements : ∀ v, v ∈ s.list ↔ v ∈ S) : s.list.length = S.card := by
  rw [← List.toFinset_card_of_nodup (nodup_list h)]
  congr 1
  ext v
  rw [List.mem_toFinset, helements]

theorem step_inv (h : Inv s) (helements : ∀ v, v ∈ s.list ↔ v ∈ S) (call : Call) (hval : call.val ≠ Int32.minValue)
    (hcard : (refSet S call).1.card ≤ 2 ^ 31) :
    ∃ s', step s call = some (s', (refSet S call).2) ∧ Inv s' ∧ ∀ v, v ∈ s'.list ↔ v ∈ (refSet S call).1 := by
  cases call with
  | insert val =>
    rw [Call.val] at hval
    unfold step refSet
    dsimp only
    by_cases hmem : val ∈ s.list
    · refine ⟨s, ?_, h, fun v => ?_⟩
      · rw [insert_present h hval hmem, decide_eq_false (not_not.2 ((helements val).1 hmem))]
      · rw [Finset.insert_eq_of_mem ((helements val).1 hmem), helements]
    · have hnot : val ∉ S := mt (helements val).2 hmem
      have hroom : s.list.length < 2 ^ 31 := by
        rw [refSet, Finset.card_insert_of_notMem hnot] at hcard
        rw [length_eq_card h helements]
        omega
      obtain ⟨s', hinsert, hinv, hlist⟩ := insert_inv h hval hmem hroom
      refine ⟨s', by rw [hinsert, decide_eq_true hnot], hinv, fun v => ?_⟩
      rw [hlist, List.mem_append, List.mem_singleton, Finset.mem_insert, helements, or_comm]
  | remove val =>
    rw [Call.val] at hval
    unfold step refSet
    dsimp only
    by_cases hmem : val ∈ s.list
    · obtain ⟨s', hremove, hinv, hlist⟩ := remove_inv h hval hmem
      refine ⟨s', by rw [hremove, decide_eq_true ((helements val).1 hmem)], hinv, fun v => ?_⟩
      rw [hlist, Finset.mem_erase, helements]
    · have hnot : val ∉ S := mt (helements val).2 hmem
      refine ⟨s, ?_, h, fun v => ?_⟩
      · rw [remove_absent h hval hmem, decide_eq_false hnot]
      · rw [Finset.erase_eq_of_notMem hnot, helements]

theorem run_inv (calls : List Call) (hvalues : ∀ call ∈ calls, call.val ≠ Int32.minValue)
    (hcard : ∀ before, before <+: calls → (Machine.runTotal refSet ∅ before).1.card ≤ 2 ^ 31) :
    ∃ s, Machine.run step init calls = some (s, (Machine.runTotal refSet ∅ calls).2) ∧ Inv s ∧
      ∀ v, v ∈ s.list ↔ v ∈ (Machine.runTotal refSet ∅ calls).1 := by
  induction calls using List.reverseRecOn with
  | nil => exact ⟨init, rfl, inv_init, fun v => by simp [init, Machine.runTotal]⟩
  | append_singleton calls call ih =>
    obtain ⟨s, hrun, hinv, helements⟩ := ih (fun c hc => hvalues c (List.mem_append_left _ hc))
      fun before hbefore => hcard before (hbefore.trans (List.prefix_append _ _))
    have hlast := hcard (calls ++ [call]) List.prefix_rfl
    rw [Machine.runTotal_concat] at hlast
    obtain ⟨s', hstep, hinv', helements'⟩ :=
      step_inv hinv helements call (hvalues call (List.mem_append_right _ List.mem_cons_self)) hlast
    rw [Machine.runTotal_concat]
    exact ⟨s', Machine.run_concat hrun hstep, hinv', helements'⟩

/-- **The set.** Every list of calls with values other than INT_MIN, in which the set never has more than 2 ^ 31 elements, is
answered like one on a mathematical set, with every access in range; `list` then holds the elements without duplicates, and the
table gives the position of each and has no key twice. -/
theorem refines_set (calls : List Call) (hvalues : ∀ call ∈ calls, call.val ≠ Int32.minValue)
    (hcard : ∀ before, before <+: calls → (Machine.runTotal refSet ∅ before).1.card ≤ 2 ^ 31) :
    Machine.Agrees step refSet Holds init ∅ calls := by
  obtain ⟨s, hrun, hinv, helements⟩ := run_inv calls hvalues hcard
  exact ⟨s, hrun, holds_of_inv hinv helements⟩

/-- a set gains at most one element with each call -/
theorem card_le (calls : List Call) : (Machine.runTotal refSet ∅ calls).1.card ≤ calls.length := by
  induction calls using List.reverseRecOn with
  | nil => exact Nat.zero_le _
  | append_singleton calls call ih =>
    rw [Machine.runTotal_concat, List.length_append, List.length_singleton]
    dsimp only
    cases call with
    | insert val => exact (Finset.card_insert_le val _).trans (by omega)
    | remove val => exact (Finset.card_erase_le).trans (by omega)

theorem refines_set_swap :
    ∃ s, Machine.run step init [.insert 1, .insert 101, .insert (-1), .remove 1, .remove 1, .insert 101] =
        some (s, [true, true, true, true, false, false]) ∧ Holds s {101, -1} := by
  have href : Machine.runTotal refSet ∅ [.insert 1, .insert 101, .insert (-1), .remove 1, .remove 1, .insert 101] =
      ({101, -1}, [true, true, true, true, false, false]) := by decide
  have h := refines_set [.insert 1, .insert 101, .insert (-1), .remove 1, .remove 1, .insert 101] (by decide)
    fun before hbefore => (card_le before).trans (hbefore.length_le.trans (by decide))
  rwa [Machine.Agrees, href] at h

/-! ### One element too many -/

/-- `n` values, from -1 on -/
def ascending (n : ℕ) : List Call := (List.range n).map fun k : ℕ => .insert (Int32.ofInt (k - 1))

theorem ascending_succ (n : ℕ) : ascending (n + 1) = ascending n ++ [.insert (Int32.ofInt (n - 1))] := by
  rw [ascending, List.range_succ, List.map_append]
  rfl

theorem ascending_value {n : ℕ} (hn : n ≤ 2 ^ 31 + 1) {call : Call} (h : call ∈ ascending n) :
    ∃ k < n, call.val.toInt = (k : ℤ) - 1 := by
  obtain ⟨k, hk, rfl⟩ := List.mem_map.1 h
  have hk := List.mem_range.1 hk
  exact ⟨k, hk, Int32.toInt_ofInt_of_le (by omega) (by omega)⟩

theorem mem_runTotal_ascending {n : ℕ} {v : Int32} (h : v ∈ (Machine.runTotal refSet ∅ (ascending n)).1) :
    ∃ call ∈ ascending n, call.val = v := by
  induction n with
  | zero => exact absurd h (Finset.notMem_empty v)
  | succ n ih =>
    rw [ascending_succ, Machine.runTotal_concat] at h
    rw [ascending_succ]
    rcases Finset.mem_insert.1 h with rfl | h
    · exact ⟨_, List.mem_append_right _ List.mem_cons_self, rfl⟩
    · obtain ⟨call, hcall, hval⟩ := ih h
      exact ⟨call, List.mem_append_left _ hcall, hval⟩

theorem notMem_ascending {n : ℕ} (hn : n ≤ 2 ^ 31) :
    Int32.ofInt (n - 1) ∉ (Machine.runTotal refSet ∅ (ascending n)).1 := by
  intro h
  obtain ⟨call, hcall, hval⟩ := mem_runTotal_ascending h
  obtain ⟨k, hk, hkval⟩ := ascending_value (by omega) hcall
  have hlast : (Int32.ofInt (n - 1)).toInt = (n : ℤ) - 1 := Int32.toInt_ofInt_of_le (by omega) (by omega)
  rw [hval, hlast] at hkval
  omega

theorem card_ascending {n : ℕ} (hn : n ≤ 2 ^ 31) : (Machine.runTotal refSet ∅ (ascending n)).1.card = n := by
  induction n with
  | zero => rfl
  | succ n ih =>
    rw [ascending_succ, Machine.runTotal_concat]
    exact (Finset.card_insert_of_notMem (notMem_ascending (by omega))).trans (by rw [ih (by omega)])

/-- the element after the first `n` has position `n`, and `find` gives what an `int` holds of it -/
theorem ascending_position {n : ℕ} (hn : n = 2 ^ 31) :
    (∀ call ∈ ascending (n + 1), call.val ≠ Int32.minValue) ∧
    ∃ s, Machine.run step init (ascending (n + 1)) = some (s, (Machine.runTotal refSet ∅ (ascending (n + 1))).2) ∧
      s.list[n]? = some (Int32.ofInt (n - 1)) ∧
      CustomHashTable.find s.indexMap (Int32.ofInt (n - 1)) = some (some (int n)) := by
  have hvalues : ∀ call ∈ ascending (n + 1), call.val ≠ Int32.minValue := by
    intro call hcall hmin
    obtain ⟨k, -, hk⟩ := ascending_value (by omega) hcall
    rw [hmin, Int32.toInt_minValue] at hk
    omega
  refine ⟨hvalues, ?_⟩
  rw [ascending_succ] at hvalues
  have hlength : (ascending n).length = n := by rw [ascending, List.length_map, List.length_range]
  obtain ⟨s, hrun, hinv, helements⟩ := run_inv (ascending n) (fun c hc => hvalues c (List.mem_append_left _ hc))
    fun before hbefore => (card_le before).trans (hbefore.length_le.trans (by omega))
  have hfull : s.list.length = n := (length_eq_card hinv helements).trans (card_ascending (by omega))
  have hval : Int32.ofInt (n - 1) ≠ Int32.minValue := hvalues _ (List.mem_append_right _ List.mem_cons_self)
  have hnew := notMem_ascending (n := n) (by omega)
  obtain ⟨s', hinsert, hsound, hlist, hlookup⟩ := insert_absent hinv.table hval
    ((lookup_eq_none hinv hval).2 (mt (helements _).1 hnew))
  refine ⟨s', ?_, ?_, ?_⟩
  · rw [ascending_succ, Machine.runTotal_concat]
    refine Machine.run_concat hrun ?_
    rw [refSet, decide_eq_true hnew]
    exact hinsert
  · rw [hlist, getElem?_concat]
    exact .inr ⟨hfull.symm, rfl⟩
  · rw [find_eq hsound hval, hlookup, hfull]
    exact congrArg some (if_pos rfl)

/-- **The position wraps.** After 2 ^ 31 + 1 insertions of different values, the position that `find` gives for the last of
them is negative. -/
theorem position_wraps :
    (∀ call ∈ ascending (2 ^ 31 + 1), call.val ≠ Int32.minValue) ∧
    ¬Machine.Agrees step refSet Holds init ∅ (ascending (2 ^ 31 + 1)) := by
  obtain ⟨hvalues, s, hrun, -, hfind⟩ := ascending_position rfl
  refine ⟨hvalues, fun h => ?_⟩
  obtain ⟨s', hrun', hholds⟩ := h
  obtain rfl : s = s' := (Prod.mk.inj (Option.some.inj (hrun.symm.trans hrun'))).1
  have hval := hvalues (.insert (Int32.ofInt ((2 ^ 31 : ℕ) - 1))) (by
    rw [ascending_succ]
    exact List.mem_append_right _ List.mem_cons_self)
  obtain ⟨r, hr, hindex⟩ := hholds.find _ hval
  obtain ⟨hnonneg, -⟩ := (hindex _).1 (Option.some.inj (hr.symm.trans hfind))
  exact absurd hnonneg (by decide)

/-- **Draws.** While the set is held, `getRandom` returns each of its elements for exactly one of the `list.size()` draws, and
returns nothing else. -/
theorem getRandom_once (h : Holds s S) :
    (∀ index < s.list.length, ∃ v ∈ S, s.getRandom index = some v) ∧
    ∀ v ∈ S, ∃! index, index < s.list.length ∧ s.getRandom index = some v := by
  refine ⟨fun index hlt => ⟨s.list[index], ?_, List.getElem?_eq_getElem hlt⟩, fun v hv => ?_⟩
  · exact (h.elements _).1 (List.getElem_mem hlt)
  · obtain ⟨index, hindex⟩ := List.mem_iff_getElem?.1 ((h.elements v).2 hv)
    obtain ⟨hlt, -⟩ := List.getElem?_eq_some_iff.1 hindex
    refine ⟨index, ⟨hlt, hindex⟩, fun j hj => ?_⟩
    exact (List.getElem?_inj hj.1 h.nodup).1 (hj.2.trans hindex.symm)

/-! ## Bucket indices -/

/-- the indices that `insert` computes after `find` has given its answer: that of `find`, and that of the insertion -/
def insertIndices (val : Int32) : Option (Option ℤ) → List ℤ
  | some none => [hash val, hash val]
  | _ => [hash val]

/-- the same for `remove`: that of `find`, that of the insertion of the last element, and that of `erase` -/
def removeIndices (list : List Int32) (val : Int32) : Option (Option ℤ) → List ℤ
  | some (some index) =>
    hash val :: (list.getLast?.bind fun lastVal =>
      (State.write list index lastVal).map fun _ => [hash lastVal, hash val]).getD []
  | _ => [hash val]

/-- the indices into `buckets` that a call computes, in order -/
def indices (s : State) : Call → List ℤ
  | .insert val => insertIndices val (CustomHashTable.find s.indexMap val)
  | .remove val => removeIndices s.list val (CustomHashTable.find s.indexMap val)

/-- the indices of a call are below 100 and inside `buckets` -/
def InRange (s : State) (call : Call) : Prop :=
  ∀ index ∈ indices s call, 0 ≤ index ∧ index < capacity ∧ index.toNat < s.indexMap.length

theorem hash_mem_insertIndices (val : Int32) (found : Option (Option ℤ)) : hash val ∈ insertIndices val found := by
  rcases found with _ | _ | i <;> simp [insertIndices]

theorem hash_mem_removeIndices (list : List Int32) (val : Int32) (found : Option (Option ℤ)) :
    hash val ∈ removeIndices list val found := by
  rcases found with _ | _ | i <;> simp [removeIndices]

/-- every call computes the index of its value first -/
theorem hash_mem_indices (s : State) (call : Call) : hash call.val ∈ indices s call := by
  cases call with
  | insert val => exact hash_mem_insertIndices val _
  | remove val => exact hash_mem_removeIndices s.list val _

theorem mem_insertIndices {found : Option (Option ℤ)} {index : ℤ} (h : index ∈ insertIndices val found) :
    index = hash val := by
  rcases found with _ | _ | i <;> simpa [insertIndices] using h

theorem mem_removeIndices {list : List Int32} {found : Option (Option ℤ)} {index : ℤ}
    (h : index ∈ removeIndices list val found) : ∃ key, index = hash key ∧ (key = val ∨ key ∈ list) := by
  rcases found with _ | _ | i
  · exact ⟨val, by simpa [removeIndices] using h, Or.inl rfl⟩
  · exact ⟨val, by simpa [removeIndices] using h, Or.inl rfl⟩
  · simp only [removeIndices] at h
    rcases List.mem_cons.1 h with h | h
    · exact ⟨val, h, Or.inl rfl⟩
    · cases hlast : list.getLast? with
      | none => simp [hlast] at h
      | some lastVal =>
        rw [hlast, Option.bind_some] at h
        cases hwrite : State.write list i lastVal with
        | none => simp [hwrite] at h
        | some written =>
          simp only [hwrite, Option.map_some, Option.getD_some, List.mem_cons, List.not_mem_nil, or_false] at h
          rcases h with h | h
          · exact ⟨lastVal, h, Or.inr (List.mem_of_getLast? hlast)⟩
          · exact ⟨val, h, Or.inl rfl⟩

/-- a call computes only indices of its value and of elements of `list` -/
theorem mem_indices {call : Call} {index : ℤ} (h : index ∈ indices s call) :
    ∃ key, index = hash key ∧ (key = call.val ∨ key ∈ s.list) := by
  cases call with
  | insert val => exact ⟨val, mem_insertIndices h, Or.inl rfl⟩
  | remove val => exact mem_removeIndices h

theorem length_insert {buckets' : Buckets} {value : ℤ} (h : CustomHashTable.insert buckets key value = some buckets') :
    buckets'.length = buckets.length := by
  obtain ⟨chain, -, rfl⟩ := Option.map_eq_some_iff.1 h
  exact List.length_set

theorem length_erase {buckets' : Buckets} (h : CustomHashTable.erase buckets key = some buckets') :
    buckets'.length = buckets.length := by
  obtain ⟨chain, -, rfl⟩ := Option.map_eq_some_iff.1 h
  exact List.length_set

/-- what a call that returns leaves: the number of buckets, and elements that were there or are the value -/
theorem step_frame {s' : State} {call : Call} {r : Bool} (h : step s call = some (s', r)) :
    s'.indexMap.length = s.indexMap.length ∧ ∀ v ∈ s'.list, v = call.val ∨ v ∈ s.list := by
  cases call with
  | insert val =>
    obtain ⟨found, -, h⟩ := Option.bind_eq_some_iff.1 h
    cases found with
    | some index =>
      obtain ⟨rfl, -⟩ := Prod.mk.inj (Option.some.inj h)
      exact ⟨rfl, fun v hv => Or.inr hv⟩
    | none =>
      obtain ⟨indexMap, hinsert, heq⟩ := Option.map_eq_some_iff.1 h
      obtain ⟨rfl, -⟩ := Prod.mk.inj heq
      refine ⟨length_insert hinsert, fun v hv => ?_⟩
      rcases List.mem_append.1 hv with hv | hv
      · exact Or.inr hv
      · exact Or.inl (List.mem_singleton.1 hv)
  | remove val =>
    obtain ⟨found, -, h⟩ := Option.bind_eq_some_iff.1 h
    cases found with
    | none =>
      obtain ⟨rfl, -⟩ := Prod.mk.inj (Option.some.inj h)
      exact ⟨rfl, fun v hv => Or.inr hv⟩
    | some index =>
      obtain ⟨lastVal, hlast, h⟩ := Option.bind_eq_some_iff.1 h
      obtain ⟨list, hwrite, h⟩ := Option.bind_eq_some_iff.1 h
      obtain ⟨map₁, hinsert, h⟩ := Option.bind_eq_some_iff.1 h
      obtain ⟨map₂, herase, h⟩ := Option.bind_eq_some_iff.1 h
      obtain ⟨rfl, -⟩ := Prod.mk.inj (Option.some.inj h)
      refine ⟨(length_erase herase).trans (length_insert hinsert), fun v hv => Or.inr ?_⟩
      unfold State.write at hwrite
      split_ifs at hwrite
      obtain rfl := Option.some.inj hwrite
      rcases List.mem_or_eq_of_mem_set (List.dropLast_subset _ hv) with hv | rfl
      · exact hv
      · exact List.mem_of_getLast? hlast

theorem hash_minValue : hash Int32.minValue = -48 := by decide

/-- one call, on 100 buckets and a `list` without INT_MIN -/
theorem inRange_iff (hlength : s.indexMap.length = capacity) (hvalid : ∀ v ∈ s.list, v ≠ Int32.minValue) (call : Call) :
    InRange s call ↔ call.val ≠ Int32.minValue := by
  constructor
  · intro hrange hmin
    have hfirst := (hrange _ (hash_mem_indices s call)).1
    rw [hmin, hash_minValue] at hfirst
    exact absurd hfirst (by decide)
  · intro hval index hindex
    obtain ⟨key, rfl, hkey⟩ := mem_indices hindex
    have hne : key ≠ Int32.minValue := by
      rcases hkey with rfl | hkey
      · exact hval
      · exact hvalid key hkey
    have := hash_range hne
    exact ⟨this.1, this.2, by rw [hlength]; omega⟩

/-- **Where the buckets are indexed.** In a run of calls with any values, every index into `buckets` is in range exactly if
no call that is reached has the value INT_MIN, whose index is -48. -/
theorem indices_inRange_iff (calls : List Call) :
    Machine.Meets (Machine.next step) InRange init calls ↔
      Machine.Meets (Machine.next step) (fun _ call => call.val ≠ Int32.minValue) init calls := by
  have hgen : ∀ s : State, s.indexMap.length = capacity → (∀ v ∈ s.list, v ≠ Int32.minValue) →
      (Machine.Meets (Machine.next step) InRange s calls ↔
        Machine.Meets (Machine.next step) (fun _ call => call.val ≠ Int32.minValue) s calls) := by
    induction calls with
    | nil => exact fun s _ _ => Iff.rfl
    | cons call calls ih =>
      intro s hlength hvalid
      rw [Machine.Meets, Machine.Meets, inRange_iff hlength hvalid]
      refine and_congr_right fun hval => forall₂_congr fun t ht => ?_
      obtain ⟨⟨s', r⟩, hstep, rfl⟩ := Option.map_eq_some_iff.1 ht
      obtain ⟨hlen, hmem⟩ := step_frame hstep
      refine ih s' (hlen.trans hlength) fun v hv => ?_
      rcases hmem v hv with rfl | hv
      · exact hval
      · exact hvalid v hv
  exact hgen init List.length_replicate fun v hv => absurd hv List.not_mem_nil

/-- one call: the index of INT_MIN is negative, and the access to `buckets` goes wrong -/
theorem minValue_out_of_range :
    indices init (.insert Int32.minValue) = [-48] ∧ step init (.insert Int32.minValue) = none ∧
      ¬ Machine.Meets (Machine.next step) InRange init [.insert Int32.minValue] := by
  refine ⟨by decide, by decide, fun h => ?_⟩
  have hfirst := (h.1 _ (hash_mem_indices init (.insert Int32.minValue))).1
  exact absurd hfirst (by decide)

end InterviewPrep.RandomizedSet
