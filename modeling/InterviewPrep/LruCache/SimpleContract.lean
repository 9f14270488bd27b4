/-
When the simple cache keeps the contract of a least-recently-used cache.

`recent` is the order in which the keys of a sequence of calls were last used, without a bound, and `lastPut` the value of
the last put of a key.

`Serves cap before call`: after the calls `before`, the cached keys are the `cap` most recent ones in order, `call` is
answered from `lastPut` of exactly its key, and it makes its key the most recent, dropping only the last key of a full
cache. `Apart cap before call`: the remainder of the key is not negative, and no other cached key has it. Both speak of the
calls alone.

Results:
- `step_of_apart`, `apart_of_step`: one call, from a cache that agrees with the calls so far (`Agrees`);
- `served_iff_apart`: a sequence of calls is served throughout exactly if every call meets `Apart`;
- `other_key_found`: two calls that are not.
-/
import InterviewPrep.Core.Machine
import InterviewPrep.Core.Recency
import InterviewPrep.LruCache.Simple

namespace InterviewPrep.LruCache.Simple

/-! ## What the calls are to do -/

open Cache

inductive Call where
  | put (key value : ℤ)
  | get (key : ℤ)
  deriving DecidableEq

def Call.key : Call → ℤ
  | .put key _ => key
  | .get key => key

/-- the reply of a put is `none` -/
def step (c : Cache) : Call → Option (Cache × Option ℤ)
  | .put key value => (c.put key value).map fun c => (c, none)
  | .get key => (c.get key).map fun (c, value) => (c, some value)

/-- value of the last put of exactly this key -/
def lastPut (calls : List Call) (k : ℤ) : Option ℤ :=
  calls.foldl (fun last call =>
    match call with
    | .put key value => if key = k then some value else last
    | .get _ => last) none

/-- a get uses a key only if it is among the `cap` most recent ones -/
def used (cap : ℕ) (keys : List ℤ) : Call → List ℤ
  | .put key _ => Recent.use keys key
  | .get key => if key ∈ keys.take cap then Recent.use keys key else keys

/-- all keys in the order of their last use -/
def recent (cap : ℕ) (calls : List Call) : List ℤ := calls.foldl (used cap) []

/-- the keys a cache is to hold after `calls` -/
def cached (cap : ℕ) (calls : List Call) : List ℤ := (recent cap calls).take cap

def answer (cap : ℕ) (before : List Call) : Call → Option ℤ
  | .put _ _ => none
  | .get key => if key ∈ cached cap before then lastPut before key else some (-1)

/-- the cached keys after a call: only the last of a full cache drops out, and only for a new key -/
def kept (cap : ℕ) (keys : List ℤ) : Call → List ℤ
  | .put key _ =>
    if key ∈ keys then Recent.use keys key else key :: if keys.length = cap then keys.dropLast else keys
  | .get key => if key ∈ keys then Recent.use keys key else keys

/-- the calls `before` led to the right cache, and `call` is answered and changes it as it is to -/
def Serves (cap : ℕ) (before : List Call) (call : Call) : Prop :=
  ∃ c replies c' reply, Machine.run step (createCache cap) before = some (c, replies) ∧
    c.keys = some (cached cap before) ∧ step c call = some (c', reply) ∧ reply = answer cap before call ∧
    c'.keys = some (kept cap (cached cap before) call)

/-- a get that finds another key, but the most recent one with value -1: what it does is what a miss does -/
def Unnoticed (cap : ℕ) (before : List Call) (call : Call) (k : ℤ) : Prop :=
  call = .get call.key ∧ (recent cap before).head? = some k ∧ lastPut before k = some (-1)

/-- the key has a slot, and no other cached key has the same -/
def Apart (cap : ℕ) (before : List Call) (call : Call) : Prop :=
  0 ≤ call.key.tmod tableSize ∧
    ∀ k ∈ cached cap before, k.tmod tableSize = call.key.tmod tableSize → k = call.key ∨ Unnoticed cap before call k

instance decidableApart (cap : ℕ) (before : List Call) (call : Call) : Decidable (Apart cap before call) :=
  inferInstanceAs (Decidable (_ ∧ ∀ k ∈ cached cap before, _ → _ ∨ (_ ∧ _ ∧ _)))

variable {cap : ℕ} {before : List Call} {call : Call} {k key value : ℤ}

@[simp] theorem lastPut_put : lastPut (before ++ [.put key value]) k = if key = k then some value else lastPut before k := by
  simp [lastPut]

@[simp] theorem lastPut_get : lastPut (before ++ [.get key]) k = lastPut before k := by simp [lastPut]

theorem recent_concat : recent cap (before ++ [call]) = used cap (recent cap before) call := by
  simp [recent]

theorem nodup_recent (cap : ℕ) (calls : List Call) : (recent cap calls).Nodup := by
  induction calls using List.reverseRecOn with
  | nil => exact List.nodup_nil
  | append_singleton calls call ih =>
    rw [recent_concat]
    cases call with
    | put key value => exact Recent.nodup_use ih
    | get key =>
      rw [used]
      split_ifs
      · exact Recent.nodup_use ih
      · exact ih

/-- the `cap` most recent keys change as a bounded cache does -/
theorem cached_concat (hcap : 1 ≤ cap) : cached cap (before ++ [call]) = kept cap (cached cap before) call := by
  unfold cached
  rw [recent_concat]
  cases call with
  | put key value =>
    rw [used, kept]
    by_cases hmem : key ∈ (recent cap before).take cap
    · rw [if_pos hmem]
      exact Recent.take_use_of_mem hmem
    · rw [if_neg hmem]
      exact Recent.take_use_of_notMem hcap hmem
  | get key =>
    rw [used, kept]
    by_cases hmem : key ∈ (recent cap before).take cap
    · rw [if_pos hmem, if_pos hmem]
      exact Recent.take_use_of_mem hmem
    · rw [if_neg hmem, if_neg hmem]

theorem head_kept_put {keys : List ℤ} : (kept cap keys (.put key value)).head? = some key := by
  rw [kept]
  split_ifs <;> rfl

/-! ## One call -/

/-- the nodes `ids` hold the keys the cache is to hold, with their values -/
structure Carries (cap : ℕ) (c : Cache) (before : List Call) (ids : List ℕ) : Prop where
  cells : c.Cells ids
  capacity : c.capacity = cap
  keys : ids.map c.key = cached cap before
  values : ∀ i ∈ ids, lastPut before (c.key i) = some (c.value i)

def Agrees (cap : ℕ) (c : Cache) (before : List Call) : Prop := ∃ ids, Carries cap c before ids

variable {c : Cache} {ids l r : List ℕ} {i s : ℕ}

theorem createCache_agrees : Agrees cap (createCache cap) [] :=
  ⟨[], createCache_cells cap, rfl, by simp [cached, recent], by simp⟩

theorem nodup_cached : (cached cap before).Nodup := (List.take_sublist _ _).nodup (nodup_recent cap before)

theorem Carries.keys_eq (h : Carries cap c before ids) : c.keys = some (cached cap before) := by
  rw [h.cells.keys_eq, h.keys]

theorem Carries.nodup (h : Carries cap c before ids) : (ids.map c.key).Nodup := h.keys ▸ nodup_cached

theorem Carries.key_mem (h : Carries cap c before ids) (hi : i ∈ ids) : c.key i ∈ cached cap before :=
  h.keys ▸ List.mem_map_of_mem hi

/-- the node of a cached key -/
theorem Carries.exists_node (h : Carries cap c before ids) (hk : k ∈ cached cap before) : ∃ i ∈ ids, c.key i = k :=
  List.mem_map.1 (h.keys ▸ hk)

/-- a call that finds the node of another key misses its own -/
theorem Carries.miss (h : Carries cap c before ids) (hslot : slot key = some s) (hhash : c.hash s = some i)
    (hne : c.key i ≠ key) : key ∉ cached cap before := by
  intro hmem
  obtain ⟨j, hj, rfl⟩ := h.exists_node hmem
  have hback := (h.cells.table s j).2 ⟨hj, hslot⟩
  rw [hhash] at hback
  exact hne (congrArg c.key (Option.some.inj hback))

theorem slot_eq_some {s : ℕ} : slot key = some s ↔ key.tmod tableSize = s := by
  rw [slot]
  split_ifs with h
  · rw [Option.some_inj]
    omega
  · simp only [false_iff]
    omega

theorem slot_of_nonneg (h : 0 ≤ key.tmod tableSize) : slot key = some (key.tmod tableSize).toNat := if_pos h

/-- using the key of a listed node -/
theorem use_map {f : ℕ → ℤ} (hnd : ((l ++ i :: r).map f).Nodup) :
    Recent.use ((l ++ i :: r).map f) (f i) = (i :: (l ++ r)).map f := by
  rw [List.map_append, List.map_cons] at hnd ⊢
  have hl : f i ∉ l.map f := by
    have hnd' := List.nodup_cons.1 (List.nodup_middle.1 hnd)
    exact fun hmem => hnd'.1 (List.mem_append_left _ hmem)
  rw [Recent.use, List.erase_append_right _ hl, List.erase_cons_head, List.map_cons, List.map_append]

/-- the node of a slot -/
theorem Carries.lookup_cases (h : Carries cap c before ids) (hslot : slot key = some s) :
    (∃ l i r, ids = l ++ i :: r ∧ c.hash s = some i ∧ (c.key i).tmod tableSize = key.tmod tableSize) ∨
      (c.hash s = none ∧ (∀ i ∈ ids, slot (c.key i) ≠ some s) ∧ key ∉ cached cap before) := by
  rcases h.cells.hash_cases s with ⟨l, i, r, rfl, hhash, hsloti⟩ | ⟨hhash, hfree⟩
  · refine Or.inl ⟨l, i, r, rfl, hhash, ?_⟩
    rw [slot_eq_some.1 hsloti, slot_eq_some.1 hslot]
  · refine Or.inr ⟨hhash, hfree, ?_⟩
    intro hmem
    obtain ⟨j, hj, rfl⟩ := h.exists_node hmem
    exact hfree j hj hslot

/-- the node of the key itself goes to the head -/
theorem get_present (hcap : 1 ≤ cap) (h : Carries cap c before (l ++ i :: r)) :
    ∃ c', c.moveToHead i = some c' ∧ c'.value = c.value ∧ Agrees cap c' (before ++ [.get (c.key i)]) := by
  obtain ⟨p, n, hmove, hcells⟩ := moveToHead_cells h.cells
  refine ⟨c.relink p n, hmove, rfl, i :: (l ++ r), hcells, h.capacity, ?_, ?_⟩
  · rw [cached_concat hcap, kept, if_pos (h.key_mem (by simp)), ← h.keys]
    exact (use_map h.nodup).symm
  · intro j hj
    rw [lastPut_get]
    exact h.values j (List.perm_middle.mem_iff.2 hj)

theorem put_present (hcap : 1 ≤ cap) (h : Carries cap c before (l ++ i :: r)) (value : ℤ) :
    ∃ c', (c.setValue i value).moveToHead i = some c' ∧ Agrees cap c' (before ++ [.put (c.key i) value]) := by
  obtain ⟨p, n, hmove, hcells⟩ := moveToHead_cells (h.cells.setValue (i := i) value)
  refine ⟨(c.setValue i value).relink p n, hmove, i :: (l ++ r), hcells, h.capacity, ?_, ?_⟩
  · rw [cached_concat hcap, kept, if_pos (h.key_mem (by simp)), ← h.keys]
    exact (use_map h.nodup).symm
  · intro j hj
    have hj' : j ∈ l ++ i :: r := List.perm_middle.mem_iff.2 hj
    change lastPut (before ++ [.put (c.key i) value]) (c.key j) = some (Function.update c.value i value j)
    rw [lastPut_put]
    rcases eq_or_ne j i with rfl | hne
    · rw [if_pos rfl, Function.update_self]
    · have hkey : c.key i ≠ c.key j := fun heq => hne (List.inj_on_of_nodup_map h.nodup hj' (by simp) heq.symm)
      rw [if_neg hkey, Function.update_of_ne hne, h.values j hj']

/-- a new node in front of nodes that were there before -/
theorem put_entered {c' : Cache} {ids' : List ℕ} (h : Carries cap c before ids) (habsent : ∀ j ∈ ids, c.key j ≠ key)
    (hcells : c'.Cells (c.fresh :: ids')) (hc : c'.capacity = cap) (hk : c'.key = Function.update c.key c.fresh key)
    (hv : c'.value = Function.update c.value c.fresh value) (hsub : ∀ j ∈ ids', j ∈ ids)
    (hcached : key :: ids'.map c.key = cached cap (before ++ [.put key value])) :
    Agrees cap c' (before ++ [.put key value]) := by
  have hne : ∀ j ∈ ids', j ≠ c.fresh := by
    intro j hj heq
    have hlt := h.cells.bound j (List.mem_cons_of_mem _ (List.mem_append_left _ (hsub j hj)))
    exact absurd hlt (heq ▸ Nat.lt_irrefl j)
  refine ⟨c.fresh :: ids', hcells, hc, ?_, ?_⟩
  · rw [← hcached, hk, List.map_cons, Function.update_self]
    congr 1
    exact List.map_congr_left fun j hj => Function.update_of_ne (hne j hj) ..
  · intro j hj
    rw [lastPut_put, hk, hv]
    rcases List.mem_cons.1 hj with rfl | hj
    · rw [Function.update_self, Function.update_self, if_pos rfl]
    · rw [Function.update_of_ne (hne j hj), Function.update_of_ne (hne j hj),
        if_neg (habsent j (hsub j hj)).symm, h.values j (hsub j hj)]

theorem Carries.length_le (h : Carries cap c before ids) : ids.length ≤ cap := by
  have hlen : (cached cap before).length ≤ cap := List.length_take_le ..
  rwa [← h.keys, List.length_map] at hlen

theorem put_absent (hcap : 1 ≤ cap) (h : Carries cap c before ids) (hslot : slot key = some s)
    (hfree : ∀ i ∈ ids, slot (c.key i) ≠ some s) (hmiss : key ∉ cached cap before) (value : ℤ) :
    ∃ c₁ c', ((c.newNode key value).setHash s (some c.fresh)).addNode c.fresh = some c₁ ∧
      (if (c₁.addSize 1).capacity < (c₁.addSize 1).size then (c₁.addSize 1).evict else some (c₁.addSize 1)) = some c' ∧
      Agrees cap c' (before ++ [.put key value]) := by
  obtain ⟨p, n, hadd, hcells⟩ := addNew_cells h.cells hslot hfree value
  set c₁ := ((c.newNode key value).setHash s (some c.fresh)).relink p n with hc₁
  have hsize : (c₁.addSize 1).size = ids.length + 1 := congrArg (· + 1) h.cells.size
  have hcapacity : (c₁.addSize 1).capacity = cap := h.capacity
  have habsent : ∀ j ∈ ids, c.key j ≠ key := fun j hj heq => hmiss (heq ▸ h.key_mem hj)
  have hcached : cached cap (before ++ [.put key value]) =
      key :: if ids.length = cap then ids.dropLast.map c.key else ids.map c.key := by
    rw [cached_concat hcap, kept, if_neg hmiss, ← h.keys, List.length_map, List.map_dropLast]
  refine ⟨c₁, ?_⟩
  rw [hsize, hcapacity]
  rcases Nat.lt_or_ge ids.length cap with hroom | hfull
  · rw [if_neg (Nat.ne_of_lt hroom)] at hcached
    refine ⟨c₁.addSize 1, hadd, if_neg (by omega), ?_⟩
    exact put_entered h habsent hcells hcapacity rfl rfl (fun j hj => hj) hcached.symm
  · have hlen : ids.length = cap := Nat.le_antisymm h.length_le hfull
    have hne : ids ≠ [] := List.ne_nil_of_length_pos (by omega)
    obtain ⟨l, i, rfl⟩ : ∃ l i, ids = l ++ [i] := ⟨_, _, (List.dropLast_concat_getLast hne).symm⟩
    rw [if_pos hlen, List.dropLast_concat] at hcached
    obtain ⟨c', hevict, hcells', hk, hv, hc'⟩ := evict_cells (l := c.fresh :: l) hcells
    refine ⟨c', hadd, by rw [if_pos (by omega), hevict], ?_⟩
    exact put_entered h habsent hcells' (hc'.trans hcapacity) hk hv (fun j hj => List.mem_append_left _ hj) hcached.symm

theorem step_get_hit {c' : Cache} (hslot : slot key = some s) (hhash : c.hash s = some i)
    (hmove : c.moveToHead i = some c') : step c (.get key) = some (c', some (c'.value i)) := by
  simp only [step, Cache.get, hslot, Option.bind_some, hhash, hmove, Option.map_some]

theorem step_put_hit {c' : Cache} (hslot : slot key = some s) (hhash : c.hash s = some i)
    (hmove : (c.setValue i value).moveToHead i = some c') : step c (.put key value) = some (c', none) := by
  simp only [step, Cache.put, hslot, Option.bind_some, hhash, hmove, Option.map_some]

theorem first_of_head {f : ℕ → ℤ} (hnd : ((l ++ i :: r).map f).Nodup)
    (hhead : ((l ++ i :: r).map f).head? = some (f i)) : l = [] := by
  cases l with
  | nil => rfl
  | cons j l =>
    have hj : f j = f i := by simpa using hhead
    rw [List.cons_append, List.map_cons, List.nodup_cons] at hnd
    exact absurd (hj ▸ List.mem_map_of_mem (by simp)) hnd.1

/-- another key is found, but at the head already, and its value is that of a miss -/
theorem get_unnoticed (hcap : 1 ≤ cap) (h : Carries cap c before (l ++ i :: r)) (hslot : slot key = some s)
    (hhash : c.hash s = some i) (hmiss : key ∉ cached cap before)
    (hunnoticed : Unnoticed cap before (.get key) (c.key i)) :
    ∃ c', step c (.get key) = some (c', answer cap before (.get key)) ∧ Agrees cap c' (before ++ [.get key]) := by
  obtain ⟨-, hhead, hminus⟩ := hunnoticed
  obtain ⟨p, n, hmove, hcells⟩ := moveToHead_cells h.cells
  have hvalue : c.value i = -1 := Option.some.inj ((h.values i (by simp)).symm.trans hminus)
  have hl : l = [] := by
    refine first_of_head h.nodup ?_
    rw [h.keys, cached, List.head?_take, if_neg (by omega), hhead]
  subst hl
  refine ⟨c.relink p n, ?_, i :: r, hcells, h.capacity, ?_, ?_⟩
  · rw [step_get_hit hslot hhash hmove, answer, if_neg hmiss, ← hvalue]
    rfl
  · rw [cached_concat hcap, kept, if_neg hmiss]
    exact h.keys
  · intro j hj
    rw [lastPut_get]
    exact h.values j hj

/-- a call that meets the condition -/
theorem step_of_apart (hcap : 1 ≤ cap) (h : Agrees cap c before) (hapart : Apart cap before call) :
    ∃ c', step c call = some (c', answer cap before call) ∧ Agrees cap c' (before ++ [call]) := by
  obtain ⟨ids, h⟩ := h
  obtain ⟨hnonneg, hothers⟩ := hapart
  have hslot := slot_of_nonneg hnonneg
  cases call with
  | put key value =>
    simp only [Call.key] at hslot hothers
    rcases h.lookup_cases hslot with ⟨l, i, r, rfl, hhash, hsame⟩ | ⟨hhash, hfree, hmiss⟩
    · obtain rfl : c.key i = key := by
        rcases hothers _ (h.key_mem (by simp)) hsame with heq | ⟨hget, -⟩
        · exact heq
        · cases hget
      obtain ⟨c', hput, hagree⟩ := put_present hcap h value
      exact ⟨c', step_put_hit hslot hhash hput, hagree⟩
    · obtain ⟨c₁, c', hadd, hend, hagree⟩ := put_absent hcap h hslot hfree hmiss value
      refine ⟨c', ?_, hagree⟩
      simp only [step, Cache.put, hslot, Option.bind_some, hhash, hadd, hend, Option.map_some, answer]
  | get key =>
    simp only [Call.key] at hslot hothers
    rcases h.lookup_cases hslot with ⟨l, i, r, rfl, hhash, hsame⟩ | ⟨hhash, -, hmiss⟩
    · have hmem : c.key i ∈ cached cap before := h.key_mem (by simp)
      by_cases heq : c.key i = key
      · subst heq
        obtain ⟨c', hmove, hvalue, hagree⟩ := get_present hcap h
        refine ⟨c', ?_, hagree⟩
        rw [step_get_hit hslot hhash hmove, answer, if_pos hmem, h.values i (by simp), hvalue]
      · have hunnoticed := (hothers _ hmem hsame).resolve_left heq
        exact get_unnoticed hcap h hslot hhash (h.miss hslot hhash heq) hunnoticed
    · refine ⟨c, ?_, ids, h.cells, h.capacity, ?_, ?_⟩
      · simp only [step, Cache.get, hslot, Option.bind_some, hhash, Option.map_some, answer, if_neg hmiss]
      · rw [cached_concat hcap, kept, if_neg hmiss, h.keys]
      · intro i hi
        rw [lastPut_get]
        exact h.values i hi

/-- a call without a slot is not possible -/
theorem slot_of_step {c' : Cache} {reply : Option ℤ} (h : step c call = some (c', reply)) :
    0 ≤ call.key.tmod tableSize := by
  by_contra hneg
  have hslot : slot call.key = none := if_neg hneg
  cases call with
  | put key value =>
    simp only [Call.key] at hslot
    simp [step, Cache.put, hslot] at h
  | get key =>
    simp only [Call.key] at hslot
    simp [step, Cache.get, hslot] at h

/-- a call that is served meets the condition: finding another key shows -/
theorem apart_of_step {c' : Cache} (h : Agrees cap c before) (hstep : step c call = some (c', answer cap before call))
    (hafter : c'.keys = some (kept cap (cached cap before) call)) : Apart cap before call := by
  obtain ⟨ids, h⟩ := h
  have hnonneg := slot_of_step hstep
  refine ⟨hnonneg, ?_⟩
  intro k hk hsame
  rcases eq_or_ne k call.key with heq | hne
  · exact Or.inl heq
  right
  have hslot := slot_of_nonneg hnonneg
  -- the node of `k` is the one the call finds
  obtain ⟨i, hi, rfl⟩ := h.exists_node hk
  have hsloti : slot (c.key i) = some (call.key.tmod tableSize).toNat := by
    rw [slot_eq_some, hsame]
    omega
  have hhash := (h.cells.table _ i).2 ⟨hi, hsloti⟩
  obtain ⟨l, r, rfl⟩ := List.append_of_mem hi
  cases call with
  | put key value =>
    simp only [Call.key] at hslot hhash hne
    obtain ⟨p, n, hmove, hcells⟩ := moveToHead_cells (h.cells.setValue (i := i) value)
    rw [step_put_hit hslot hhash hmove] at hstep
    obtain ⟨rfl, -⟩ := Prod.mk.inj (Option.some.inj hstep)
    rw [hcells.keys_eq] at hafter
    have hfirst := congrArg List.head? (Option.some.inj hafter)
    rw [head_kept_put] at hfirst
    exact absurd (Option.some.inj hfirst) hne
  | get key =>
    simp only [Call.key] at hslot hhash hne
    obtain ⟨p, n, hmove, hcells⟩ := moveToHead_cells h.cells
    rw [step_get_hit hslot hhash hmove] at hstep
    obtain ⟨rfl, hreply⟩ := Prod.mk.inj (Option.some.inj hstep)
    have hmiss := h.miss hslot hhash hne
    rw [answer, if_neg hmiss] at hreply
    rw [hcells.keys_eq, kept, if_neg hmiss] at hafter
    refine ⟨rfl, ?_, ?_⟩
    · have hfirst := congrArg List.head? (Option.some.inj hafter)
      rw [cached, List.head?_take] at hfirst
      split_ifs at hfirst
      · cases hfirst
      · exact hfirst.symm
    · rw [h.values i (by simp)]
      exact hreply

/-! ## Whole sequences -/

theorem serves_iff (hcap : 1 ≤ cap) {replies : List (Option ℤ)}
    (hrun : Machine.run step (createCache cap) before = some (c, replies)) (h : Agrees cap c before) :
    Serves cap before call ↔ Apart cap before call := by
  constructor
  · rintro ⟨c₁, replies₁, c', reply, hrun₁, -, hstep, rfl, hafter⟩
    rw [hrun] at hrun₁
    obtain ⟨rfl, -⟩ := Prod.mk.inj (Option.some.inj hrun₁)
    exact apart_of_step h hstep hafter
  · intro hapart
    obtain ⟨c', hstep, hagree⟩ := step_of_apart hcap h hapart
    obtain ⟨ids, hcarries⟩ := h
    obtain ⟨ids', hcarries'⟩ := hagree
    refine ⟨c, replies, c', _, hrun, hcarries.keys_eq, hstep, rfl, ?_⟩
    rw [hcarries'.keys_eq, cached_concat hcap]

/-- **Sequences of calls.** For every capacity, a sequence of calls is served throughout (each get returns the value of the
last put of exactly its key if that is among the `cap` most recently used keys, and -1 otherwise; each put drops only
the least recently used key of a full cache) if and only if every key has a slot and shares it with no other key that is
cached when it is called, up to gets that miss anyway (`Unnoticed`). -/
theorem served_iff_apart (cap : ℕ) (hcap : 1 ≤ cap) (calls : List Call) :
    Machine.Every (Serves cap) [] calls ↔ Machine.Every (Apart cap) [] calls := by
  suffices hgen : ∀ (rest before : List Call) (c : Cache) (replies : List (Option ℤ)),
      Machine.run step (createCache cap) before = some (c, replies) → Agrees cap c before →
      (Machine.Every (Serves cap) before rest ↔ Machine.Every (Apart cap) before rest) from
    hgen calls [] (createCache cap) [] rfl createCache_agrees
  intro rest
  induction rest with
  | nil =>
    intro before c replies _ _
    exact Iff.rfl
  | cons call rest ih =>
    intro before c replies hrun hagree
    rw [Machine.Every, Machine.Every, serves_iff hcap hrun hagree]
    refine and_congr_right fun hapart => ?_
    obtain ⟨c', hstep, hagree'⟩ := step_of_apart hcap hagree hapart
    exact ih (before ++ [call]) c' _ (Machine.run_concat hrun hstep) hagree'

/-- the calls of `main` share no slot -/
theorem served_iff_apart_main :
    Machine.Every (Serves 3) [] [.put 1 100, .put 2 200, .put 3 300, .get 1, .put 4 400, .get 2] :=
  (served_iff_apart 3 (by decide) _).2 (by decide)

/-- keys 1 and 10001 share a slot: the get of the one that was never put returns the value of the other -/
theorem other_key_found :
    (Machine.run step (createCache 3) [.put 1 100, .get 10001]).map Prod.snd = some [none, some 100] ∧
      answer 3 [.put 1 100] (.get 10001) = some (-1) ∧
      ¬Machine.Every (Serves 3) [] [.put 1 100, .get 10001] := by
  have hcode : (Machine.run step (createCache 3) [.put 1 100, .get 10001]).map Prod.snd = some [none, some 100] := by
    decide
  have hanswer : answer 3 [.put 1 100] (.get 10001) = some (-1) := by decide
  refine ⟨hcode, hanswer, ?_⟩
  rintro ⟨-, ⟨c, replies, c', reply, hrun, -, hstep, rfl, -⟩, -⟩
  have hboth : Machine.run step (createCache 3) [.put 1 100, .get 10001] = some (c', replies ++ [some (-1)]) :=
    Machine.run_concat hrun (hanswer ▸ hstep)
  rw [hboth, Option.map_some, Option.some_inj] at hcode
  have hlast := congrArg List.getLast? hcode
  simp at hlast

end InterviewPrep.LruCache.Simple
