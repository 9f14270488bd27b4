/-
Hash tables with chained buckets.

An entry has a key, a bucket is a list of entries (its chain, from the head on) and a table is a list of buckets. `lookup` reads
the first entry of a key in the bucket that its hash value names.
- chains: `put` writes over the entry of a key or adds one at the head, `erase` takes one out; `find_put` and `find_erase` say
  what is found afterwards, `nodup_put` and `nodup_erase` that no key gets a second entry;
- tables: `lookup_set` says what is found after one bucket has been written, `lookup_replicate` that an empty table has nothing.
-/
import Mathlib.Tactic

namespace InterviewPrep.Chained

variable {ε κ : Type} [DecidableEq κ] (key : ε → κ)

/-! ## Chains -/

def find (k : κ) (chain : List ε) : Option ε := chain.find? fun e => key e = k

/-- the entry with the key of `e` is written over, if there is one -/
def replace (e : ε) : List ε → Option (List ε)
  | [] => none
  | e' :: chain => if key e' = key e then some (e :: chain) else (replace e chain).map (e' :: ·)

def put (e : ε) (chain : List ε) : List ε := (replace key e chain).getD (e :: chain)

def erase (k : κ) (chain : List ε) : List ε := chain.eraseP fun e => key e = k

variable {key} {e : ε} {k : κ} {chain : List ε}

theorem find_cons (k : κ) (e : ε) (chain : List ε) :
    find key k (e :: chain) = if key e = k then some e else find key k chain := by
  rw [find, List.find?_cons]
  split_ifs with h
  · rw [decide_eq_true h]
  · rw [decide_eq_false h]
    rfl

theorem find_eq_none : find key k chain = none ↔ k ∉ chain.map key := by
  rw [find, List.find?_eq_none]
  simp

theorem replace_eq_none : replace key e chain = none ↔ key e ∉ chain.map key := by
  induction chain with
  | nil => simp [replace]
  | cons e' chain ih =>
    rw [replace, List.map_cons, List.mem_cons, not_or]
    split_ifs with h
    · simp [h]
    · rw [Option.map_eq_none_iff, ih, and_iff_right (Ne.symm h)]

/-- nothing moves in the chain -/
theorem map_key_replace {chain' : List ε} (h : replace key e chain = some chain') : chain'.map key = chain.map key := by
  induction chain generalizing chain' with
  | nil => cases h
  | cons e' chain ih =>
    rw [replace] at h
    split_ifs at h with hkey
    · obtain rfl := Option.some.inj h
      rw [List.map_cons, List.map_cons, hkey]
    · obtain ⟨rest, hrest, rfl⟩ := Option.map_eq_some_iff.1 h
      rw [List.map_cons, List.map_cons, ih hrest]

theorem find_replace {chain' : List ε} (h : replace key e chain = some chain') (k : κ) :
    find key k chain' = if k = key e then some e else find key k chain := by
  induction chain generalizing chain' with
  | nil => cases h
  | cons e' chain ih =>
    rw [replace] at h
    split_ifs at h with hkey
    · obtain rfl := Option.some.inj h
      rw [find_cons, find_cons, hkey]
      by_cases hk : k = key e
      · rw [if_pos hk, if_pos hk.symm]
      · rw [if_neg hk, if_neg (Ne.symm hk), if_neg (Ne.symm hk)]
    · obtain ⟨rest, hrest, rfl⟩ := Option.map_eq_some_iff.1 h
      rw [find_cons, find_cons, ih hrest]
      by_cases hk : k = key e
      · rw [if_pos hk, if_pos hk, if_neg (hk ▸ hkey)]
      · rw [if_neg hk, if_neg hk]

theorem find_put (e : ε) (chain : List ε) (k : κ) :
    find key k (put key e chain) = if k = key e then some e else find key k chain := by
  unfold put
  cases h : replace key e chain with
  | some chain' => exact find_replace h k
  | none =>
    rw [Option.getD_none, find_cons]
    by_cases hk : k = key e
    · rw [if_pos hk, if_pos hk.symm]
    · rw [if_neg hk, if_neg (Ne.symm hk)]

theorem nodup_put (h : (chain.map key).Nodup) : ((put key e chain).map key).Nodup := by
  unfold put
  cases hreplace : replace key e chain with
  | some chain' => rwa [Option.getD_some, map_key_replace hreplace]
  | none => exact List.nodup_cons.2 ⟨replace_eq_none.1 hreplace, h⟩

theorem erase_cons (k : κ) (e : ε) (chain : List ε) :
    erase key k (e :: chain) = if key e = k then chain else e :: erase key k chain := by
  rw [erase, List.eraseP_cons]
  by_cases h : key e = k
  · rw [decide_eq_true h, if_pos h, cond_true]
  · rw [decide_eq_false h, if_neg h, cond_false, erase]

theorem find_erase (h : (chain.map key).Nodup) (k k' : κ) :
    find key k' (erase key k chain) = if k' = k then none else find key k' chain := by
  induction chain with
  | nil => simp [find, erase]
  | cons e chain ih =>
    rw [List.map_cons, List.nodup_cons] at h
    rw [erase_cons, find_cons]
    by_cases hkey : key e = k
    · rw [if_pos hkey, hkey]
      by_cases hk : k' = k
      · rw [if_pos hk, hk, find_eq_none, ← hkey]
        exact h.1
      · rw [if_neg hk, if_neg (Ne.symm hk)]
    · rw [if_neg hkey, find_cons, ih h.2]
      by_cases hk : k' = k
      · rw [if_pos hk, if_pos hk, if_neg (hk ▸ hkey)]
      · rw [if_neg hk, if_neg hk]

theorem nodup_erase (h : (chain.map key).Nodup) (k : κ) : ((erase key k chain).map key).Nodup :=
  h.sublist (List.eraseP_sublist.map key)

/-! ## Tables -/

def lookup (key : ε → κ) (hash : κ → ℕ) (buckets : List (List ε)) (k : κ) : Option ε :=
  find key k (buckets.getD (hash k) [])

theorem lookup_replicate (hash : κ → ℕ) (n : ℕ) (k : κ) : lookup key hash (List.replicate n []) k = none := by
  rw [lookup, List.getD_eq_getElem?_getD, List.getElem?_replicate]
  split_ifs <;> rfl

/-- if only the entry of `k` changes in its bucket, only the entry of `k` changes in the table -/
theorem lookup_set {hash : κ → ℕ} {buckets : List (List ε)} {found : Option ε} (hk : hash k < buckets.length)
    (hchain : ∀ k', find key k' chain = if k' = k then found else find key k' (buckets.getD (hash k) [])) (k' : κ) :
    lookup key hash (buckets.set (hash k) chain) k' = if k' = k then found else lookup key hash buckets k' := by
  unfold lookup
  rw [List.getD_eq_getElem?_getD]
  by_cases hhash : hash k' = hash k
  · rw [hhash, List.getElem?_set_self hk, Option.getD_some, hchain]
  · have hne : k' ≠ k := fun heq => hhash (congrArg hash heq)
    rw [List.getElem?_set_ne (Ne.symm hhash), if_neg hne, List.getD_eq_getElem?_getD]

end InterviewPrep.Chained
