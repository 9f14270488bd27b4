/-
Open addressing with linear probing on a table of M slots, deletion by re-insertion of the rest of the cluster.

A table is a function from slots to entries with a distinguished empty entry `e`; an entry has a home slot (its hash).
- `scan`: the first slot on the cyclic path from `base` that satisfies a test;
- `lookup`: follow the path until the entry is found or a slot is empty;
- `insert`: put an entry into the first empty slot of its path;
- `remove`: empty the slot of an entry, then take out and insert again every entry up to the next empty slot
  (`reinsert`, the `while` loop; `none` is a loop that needs more than M iterations).

`Holds M e tbl home S`: the table contains exactly the entries of S, each in one slot, and no slot between the home of
an entry and its slot is empty.

Results:
- `lookup_found`, `lookup_absent`: on such a table `lookup` decides membership;
- `insert_holds`: with an empty slot left, inserting succeeds and gives `Holds` for S with the new entry;
- `remove_holds`: removing terminates, reports the entry as found and gives `Holds` for S without it. The loop invariant
  `Mid` separates the slots up to the next empty slot, which are as before, from the rest, which is reachable again; no
  path leads out of the first part without crossing that empty slot (`path_avoids`);
- `lookup_key`, `lookup_noKey`, `remove_key`, `insert_key`: the same for the entries of a list with distinct keys.
-/
import Mathlib.Tactic

namespace InterviewPrep.Probe

variable {β : Type} {M : ℕ} {e : β} {tbl : ℕ → β} {home : β → ℕ} {S : Set β}

/-! ## Tables -/

/-- the table contains exactly the entries of `S`, each in one slot -/
structure Stores (M : ℕ) (e : β) (tbl : ℕ → β) (S : Set β) : Prop where
  sound : ∀ s < M, tbl s ≠ e → tbl s ∈ S
  complete : ∀ x ∈ S, ∃ s < M, tbl s = x
  once : ∀ s < M, ∀ s' < M, tbl s ≠ e → tbl s = tbl s' → s = s'
  proper : e ∉ S

/-- moreover every entry is reachable along its path -/
structure Holds (M : ℕ) (e : β) (tbl : ℕ → β) (home : β → ℕ) (S : Set β) : Prop extends Stores M e tbl S where
  path : ∀ s < M, tbl s ≠ e → ∃ p < M, s = (home (tbl s) + p) % M ∧ ∀ d ≤ p, tbl ((home (tbl s) + d) % M) ≠ e

/-- a table with fewer entries than slots has an empty slot -/
theorem Stores.exists_empty (h : Stores M e tbl S) {xs : List β} (hxs : ∀ x ∈ S, x ∈ xs) (hlen : xs.length < M) :
    ∃ s < M, tbl s = e := by
  by_contra hfull
  push Not at hfull
  have hnodup : ((List.range M).map tbl).Nodup := by
    refine (List.nodup_map_iff_inj_on List.nodup_range).2 ?_
    intro s hs s' hs' heq
    rw [List.mem_range] at hs hs'
    exact h.once s hs s' hs' (hfull s hs) heq
  have hsub : (List.range M).map tbl ⊆ xs := by
    intro x hx
    obtain ⟨s, hs, rfl⟩ := List.mem_map.1 hx
    rw [List.mem_range] at hs
    exact hxs _ (h.sound s hs (hfull s hs))
  have hle : ((List.range M).map tbl).length ≤ xs.length := (hnodup.subperm hsub).length_le
  rw [List.length_map, List.length_range] at hle
  exact absurd hlen (Nat.not_lt.2 hle)

theorem Stores.clear (h : Stores M e tbl S) {s : ℕ} (hs : s < M) (hne : tbl s ≠ e) :
    Stores M e (Function.update tbl s e) (S \ {tbl s}) where
  sound s' hs' hne' := by
    by_cases heq : s' = s
    · simp [heq] at hne'
    rw [Function.update_of_ne heq] at hne' ⊢
    refine ⟨h.sound s' hs' hne', ?_⟩
    intro hsame
    exact heq (h.once s' hs' s hs hne' hsame)
  complete x hx := by
    obtain ⟨s', hs', rfl⟩ := h.complete x hx.1
    have heq : s' ≠ s := by
      rintro rfl
      exact hx.2 rfl
    exact ⟨s', hs', Function.update_of_ne heq ..⟩
  once s₁ h₁ s₂ h₂ hne' hsame := by
    by_cases heq₁ : s₁ = s
    · simp [heq₁] at hne'
    rw [Function.update_of_ne heq₁] at hne' hsame
    by_cases heq₂ : s₂ = s
    · exact absurd (hsame.trans (by rw [heq₂, Function.update_self])) hne'
    rw [Function.update_of_ne heq₂] at hsame
    exact h.once s₁ h₁ s₂ h₂ hne' hsame
  proper hmem := h.proper hmem.1

theorem Stores.fill (h : Stores M e tbl S) {s : ℕ} (hs : s < M) (hempty : tbl s = e) {x : β} (hx : x ∉ S)
    (hxe : x ≠ e) : Stores M e (Function.update tbl s x) (Insert.insert x S) where
  sound s' hs' hne := by
    by_cases heq : s' = s
    · rw [heq, Function.update_self]
      exact Set.mem_insert x S
    rw [Function.update_of_ne heq] at hne ⊢
    exact Set.mem_insert_of_mem x (h.sound s' hs' hne)
  complete y hy := by
    rcases hy with rfl | hy
    · exact ⟨s, hs, Function.update_self ..⟩
    obtain ⟨s', hs', rfl⟩ := h.complete y hy
    have heq : s' ≠ s := by
      rintro rfl
      exact h.proper (hempty ▸ hy)
    exact ⟨s', hs', Function.update_of_ne heq ..⟩
  once s₁ h₁ s₂ h₂ hne hsame := by
    -- the new entry is nowhere else, because it was not stored
    have hnew : ∀ s' < M, s' ≠ s → Function.update tbl s x s' ≠ x := by
      intro s' hs' heq hback
      rw [Function.update_of_ne heq] at hback
      exact hx (hback ▸ h.sound s' hs' (hback ▸ hxe))
    by_cases heq₁ : s₁ = s <;> by_cases heq₂ : s₂ = s
    · rw [heq₁, heq₂]
    · rw [heq₁, Function.update_self] at hsame
      exact absurd hsame.symm (hnew s₂ h₂ heq₂)
    · rw [heq₂, Function.update_self] at hsame
      exact absurd hsame (hnew s₁ h₁ heq₁)
    · rw [Function.update_of_ne heq₁] at hne hsame
      rw [Function.update_of_ne heq₂] at hsame
      exact h.once s₁ h₁ s₂ h₂ hne hsame
  proper hmem := by
    rcases hmem with heq | hmem
    · exact hxe heq.symm
    · exact h.proper hmem

/-- the homes of other entries do not matter -/
theorem Holds.congr_home (h : Holds M e tbl home S) {home' : β → ℕ} (hhome : ∀ x ∈ S, home' x = home x) :
    Holds M e tbl home' S where
  toStores := h.toStores
  path s hs hne := by
    rw [hhome _ (h.sound s hs hne)]
    exact h.path s hs hne

/-! ## The table operations -/

variable [DecidableEq β]

/-- first slot on the cyclic path from `base` that passes the test -/
def scan (M : ℕ) (stop : ℕ → Bool) (base : ℕ) : Option ℕ :=
  ((List.range M).find? fun d => stop ((base + d) % M)).map fun d => (base + d) % M

def lookup (M : ℕ) (e : β) (tbl : ℕ → β) (hit : β → Bool) (base : ℕ) : β :=
  match scan M (fun s => tbl s = e || hit (tbl s)) base with
  | none => e
  | some s => tbl s

def insert (M : ℕ) (e : β) (tbl : ℕ → β) (base : ℕ) (x : β) : (ℕ → β) × Bool :=
  match scan M (fun s => tbl s = e) base with
  | none => (tbl, false)
  | some s => (Function.update tbl s x, true)

/-- the loop after a removal: take out and insert again until a slot is empty -/
def reinsert (M : ℕ) (e : β) (home : β → ℕ) : ℕ → (ℕ → β) → ℕ → Option (ℕ → β)
  | 0, _, _ => none
  | fuel + 1, tbl, slot =>
    if tbl slot = e then some tbl
    else reinsert M e home fuel
      (insert M e (Function.update tbl slot e) (home (tbl slot)) (tbl slot)).1 ((slot + 1) % M)

def remove (M : ℕ) (e : β) (home : β → ℕ) (tbl : ℕ → β) (hit : β → Bool) (base : ℕ) : Option ((ℕ → β) × Bool) :=
  match scan M (fun s => tbl s = e || hit (tbl s)) base with
  | none => some (tbl, false)
  | some s =>
    if tbl s = e then some (tbl, false)
    else (reinsert M e home M (Function.update tbl s e) ((s + 1) % M)).map fun tbl => (tbl, true)

/-! ## Scanning -/

theorem scan_eq_some {M : ℕ} {P : ℕ → Bool} {base s : ℕ} :
    scan M P base = some s ↔
      ∃ d < M, s = (base + d) % M ∧ P s = true ∧ ∀ d' < d, P ((base + d') % M) = false := by
  simp only [scan, Option.map_eq_some_iff, List.find?_range_eq_some]
  constructor
  · rintro ⟨d, ⟨hstop, hd, hmin⟩, rfl⟩
    exact ⟨d, by simpa using hd, rfl, hstop, fun d' hd' => by simpa using hmin d' hd'⟩
  · rintro ⟨d, hd, rfl, hstop, hmin⟩
    exact ⟨d, ⟨hstop, by simpa using hd, fun d' hd' => by simpa using hmin d' hd'⟩, rfl⟩

/-- a scan that meets a passing slot stops there or earlier -/
theorem scan_of_stop {M : ℕ} {P : ℕ → Bool} {base p : ℕ} (hp : p < M) (h : P ((base + p) % M) = true) :
    ∃ d ≤ p, scan M P base = some ((base + d) % M) ∧ P ((base + d) % M) = true ∧
      ∀ d' < d, P ((base + d') % M) = false := by
  have hex : ∃ d, P ((base + d) % M) = true := ⟨p, h⟩
  have hle : Nat.find hex ≤ p := Nat.find_min' hex h
  have hmin : ∀ d' < Nat.find hex, P ((base + d') % M) = false := by
    intro d' hd'
    simpa using Nat.find_min hex hd'
  exact ⟨Nat.find hex, hle, scan_eq_some.2 ⟨_, lt_of_le_of_lt hle hp, rfl, Nat.find_spec hex, hmin⟩,
    Nat.find_spec hex, hmin⟩

/-! ## Lookup -/

/-- **A stored entry is found**: the scan for it stops at its slot. -/
theorem scan_found (h : Holds M e tbl home S) {hit : β → Bool} {x : β} (hx : x ∈ S) (hhit : hit x = true)
    (honly : ∀ y ∈ S, hit y = true → y = x) :
    ∃ s < M, scan M (fun s => tbl s = e || hit (tbl s)) (home x) = some s ∧ tbl s = x := by
  obtain ⟨s, hs, hsx⟩ := h.complete x hx
  have hne : tbl s ≠ e := by
    rw [hsx]
    intro hxe
    exact h.proper (hxe ▸ hx)
  obtain ⟨p, hp, hsp, hpath⟩ := h.path s hs hne
  rw [hsx] at hsp hpath
  have hstop : (tbl ((home x + p) % M) = e || hit (tbl ((home x + p) % M))) = true := by
    rw [← hsp, hsx, hhit, Bool.or_true]
  obtain ⟨d, hd, hscan, hfound, -⟩ := scan_of_stop (P := fun s => tbl s = e || hit (tbl s)) hp hstop
  have hM : 0 < M := Nat.lt_of_le_of_lt (Nat.zero_le p) hp
  refine ⟨_, Nat.mod_lt _ hM, hscan, ?_⟩
  -- the slot is not empty, so the test passed because of `hit`
  have hocc := hpath d hd
  simp only [Bool.or_eq_true, decide_eq_true_eq, hocc, false_or] at hfound
  exact honly _ (h.sound _ (Nat.mod_lt _ hM) hocc) hfound

theorem lookup_found (h : Holds M e tbl home S) {hit : β → Bool} {x : β} (hx : x ∈ S) (hhit : hit x = true)
    (honly : ∀ y ∈ S, hit y = true → y = x) : lookup M e tbl hit (home x) = x := by
  obtain ⟨s, -, hscan, hs⟩ := scan_found h hx hhit honly
  simp only [lookup, hscan, hs]

/-- a scan for an entry that is not there ends at an empty slot, if it ends -/
theorem scan_absent (h : Holds M e tbl home S) {hit : β → Bool} (hno : ∀ y ∈ S, hit y = false) {base s : ℕ}
    (hscan : scan M (fun s => tbl s = e || hit (tbl s)) base = some s) : tbl s = e := by
  obtain ⟨d, hd, rfl, hstop, -⟩ := scan_eq_some.1 hscan
  by_contra hne
  have hmem := h.sound _ (Nat.mod_lt _ (by omega)) hne
  simp [hne, hno _ hmem] at hstop

/-- **An entry that is not stored is not found.** -/
theorem lookup_absent (h : Holds M e tbl home S) {hit : β → Bool} (hno : ∀ y ∈ S, hit y = false) (base : ℕ) :
    lookup M e tbl hit base = e := by
  rw [lookup]
  cases hscan : scan M (fun s => tbl s = e || hit (tbl s)) base with
  | none => rfl
  | some s => exact scan_absent h hno hscan

/-! ## Insertion -/

omit [DecidableEq β] in
/-- every slot is on every path -/
theorem exists_offset {s : ℕ} (hs : s < M) (base : ℕ) : ∃ p < M, s = (base + p) % M := by
  have hM : 0 < M := Nat.lt_of_le_of_lt (Nat.zero_le s) hs
  have hbase : base % M < M := Nat.mod_lt _ hM
  refine ⟨(s + (M - base % M)) % M, Nat.mod_lt _ hM, ?_⟩
  calc s = (s + M) % M := by rw [Nat.add_mod_right, Nat.mod_eq_of_lt hs]
    _ = (base % M + (s + (M - base % M))) % M := by congr 1; omega
    _ = (base + (s + (M - base % M))) % M := Nat.mod_add_mod ..
    _ = (base + (s + (M - base % M)) % M) % M := (Nat.add_mod_mod ..).symm

/-- **Insertion.** With an empty slot left, a new entry is stored and stays reachable. -/
theorem insert_holds (h : Holds M e tbl home S) (hroom : ∃ s < M, tbl s = e) {x : β} (hx : x ∉ S) (hxe : x ≠ e) :
    ∃ tbl', insert M e tbl (home x) x = (tbl', true) ∧ Holds M e tbl' home (Insert.insert x S) := by
  obtain ⟨s, hs, hempty⟩ := hroom
  obtain ⟨p, hp, rfl⟩ := exists_offset hs (home x)
  obtain ⟨d, hd, hscan, hslot, hbefore⟩ := scan_of_stop (P := fun s => tbl s = e) hp (by simpa using hempty)
  simp only [decide_eq_true_eq, decide_eq_false_iff_not] at hslot hbefore
  have hdM : d < M := Nat.lt_of_le_of_lt hd hp
  have hlt : (home x + d) % M < M := Nat.mod_lt _ (by omega)
  refine ⟨Function.update tbl ((home x + d) % M) x, by rw [insert, hscan], h.toStores.fill hlt hslot hx hxe, ?_⟩
  -- no occupied slot became empty
  have hkeep : ∀ s', tbl s' ≠ e → Function.update tbl ((home x + d) % M) x s' ≠ e := by
    intro s' hne
    by_cases heq : s' = (home x + d) % M
    · rwa [heq, Function.update_self]
    · rwa [Function.update_of_ne heq]
  intro s' hs' hne
  by_cases heq : s' = (home x + d) % M
  · rw [heq, Function.update_self]
    refine ⟨d, hdM, rfl, ?_⟩
    intro d' hd'
    rcases Nat.lt_or_eq_of_le hd' with hlt' | rfl
    · exact hkeep _ (hbefore d' hlt')
    · rwa [Function.update_self]
  · rw [Function.update_of_ne heq] at hne ⊢
    obtain ⟨p', hp', hsp, hpath⟩ := h.path s' hs' hne
    exact ⟨p', hp', hsp, fun d' hd' => hkeep _ (hpath d' hd')⟩

/-! ## Removal

The removed entry was in slot `s₀`, and `s₀ + k` is the first empty slot after it. When the loop stands at `s₀ + i`, the
slots from there to `s₀ + k` are as they were, and everything else is reachable along a path that avoids them. -/

/-- the slots the loop has not visited -/
def Ahead (M s₀ k i s : ℕ) : Prop := ∃ r, i ≤ r ∧ r ≤ k ∧ s = (s₀ + r) % M

theorem Ahead.of_succ {s₀ k i s : ℕ} (h : Ahead M s₀ k (i + 1) s) : Ahead M s₀ k i s := by
  obtain ⟨r, hir, hrk, hr⟩ := h
  exact ⟨r, Nat.le_of_succ_le hir, hrk, hr⟩

theorem Ahead.eq_or_succ {s₀ k i s : ℕ} (h : Ahead M s₀ k i s) : s = (s₀ + i) % M ∨ Ahead M s₀ k (i + 1) s := by
  obtain ⟨r, hir, hrk, hr⟩ := h
  rcases Nat.lt_or_eq_of_le hir with hlt | rfl
  · exact Or.inr ⟨r, hlt, hrk, hr⟩
  · exact Or.inl hr

theorem not_ahead_self {s₀ k i s : ℕ} (hk : k < M) (hik : i < k) (hs : s = (s₀ + i) % M) :
    ¬Ahead M s₀ k (i + 1) s := by
  rintro ⟨r, hir, hrk, hr⟩
  have hmod : s₀ + i ≡ s₀ + r [MOD M] := hs.symm.trans hr
  have heq : i = r := (Nat.ModEq.add_left_cancel' s₀ hmod).eq_of_lt_of_lt (by omega) (by omega)
  omega

omit [DecidableEq β] in
/-- a path of occupied slots that ends outside the slots ahead avoids them: to leave them it would cross the gap -/
theorem path_avoids {s₀ k i h p : ℕ} (hgap : tbl ((s₀ + k) % M) = e) (hpath : ∀ d ≤ p, tbl ((h + d) % M) ≠ e)
    (hend : ¬Ahead M s₀ k i ((h + p) % M)) : ∀ d ≤ p, ¬Ahead M s₀ k i ((h + d) % M) := by
  rintro d hd ⟨r, hir, hrk, heq⟩
  have hshift : ∀ c, (h + (d + c)) % M = (s₀ + (r + c)) % M := by
    intro c
    rw [← Nat.add_assoc, ← Nat.add_assoc]
    exact Nat.ModEq.add_right c heq
  rcases Nat.le_total (d + (k - r)) p with hcross | hinside
  · apply hpath _ hcross
    rw [hshift, Nat.add_sub_cancel' hrk]
    exact hgap
  · apply hend
    refine ⟨r + (p - d), by omega, by omega, ?_⟩
    rw [← hshift, Nat.add_sub_cancel' hd]

/-- the table inside the loop: `tbl` is the table before the removal -/
structure Mid (M : ℕ) (e : β) (home : β → ℕ) (tbl : ℕ → β) (s₀ k i : ℕ) (t : ℕ → β) (S : Set β) : Prop
    extends Stores M e t S where
  same : ∀ s, Ahead M s₀ k i s → t s = tbl s
  path : ∀ s < M, t s ≠ e → ¬Ahead M s₀ k i s →
    ∃ p < M, s = (home (t s) + p) % M ∧ ∀ d ≤ p, t ((home (t s) + d) % M) ≠ e ∧ ¬Ahead M s₀ k i ((home (t s) + d) % M)

omit [DecidableEq β] in
/-- the loop is entered with the entry's slot emptied -/
theorem Holds.mid (h : Holds M e tbl home S) {s₀ k : ℕ} (hs₀ : s₀ < M) (hne : tbl s₀ ≠ e) (hk : k < M)
    (hgap : tbl ((s₀ + k) % M) = e) :
    Mid M e home tbl s₀ k 1 (Function.update tbl s₀ e) (S \ {tbl s₀}) where
  toStores := h.toStores.clear hs₀ hne
  same := by
    rintro s ⟨r, hr, hrk, rfl⟩
    apply Function.update_of_ne
    intro heq
    refine not_ahead_self (i := 0) hk (by omega) (Nat.mod_eq_of_lt hs₀).symm ⟨r, hr, hrk, heq.symm⟩
  path s hs hnes hout := by
    have heq : s ≠ s₀ := by
      rintro rfl
      simp at hnes
    rw [Function.update_of_ne heq] at hnes ⊢
    obtain ⟨p, hp, hsp, hpath⟩ := h.path s hs hnes
    have hend : ¬Ahead M s₀ k 0 ((home (tbl s) + p) % M) := by
      rw [← hsp]
      intro hahead
      rcases hahead.eq_or_succ with hself | hlater
      · exact heq (by rwa [Nat.add_zero, Nat.mod_eq_of_lt hs₀] at hself)
      · exact hout hlater
    have havoid := path_avoids hgap hpath hend
    refine ⟨p, hp, hsp, fun d hd => ⟨?_, ?_⟩⟩
    · have hslot : (home (tbl s) + d) % M ≠ s₀ := by
        intro hat
        exact havoid d hd ⟨0, Nat.le_refl 0, Nat.zero_le k, by rw [hat, Nat.add_zero, Nat.mod_eq_of_lt hs₀]⟩
      rw [Function.update_of_ne hslot]
      exact hpath d hd
    · intro hahead
      exact havoid d hd hahead.of_succ

/-- the entry taken out at `s₀ + i` lands on its path, at its old slot at the latest and not ahead -/
theorem Mid.landing (h : Holds M e tbl home S) {s₀ k i : ℕ} {t : ℕ → β} {S' : Set β} (hk : k < M) (hik : i < k)
    (hgap : tbl ((s₀ + k) % M) = e) (hm : Mid M e home tbl s₀ k i t S') {j : ℕ} (hj : j = (s₀ + i) % M)
    (hne : t j ≠ e) :
    ∃ d < M, (insert M e (Function.update t j e) (home (t j)) (t j)).1 =
        Function.update (Function.update t j e) ((home (t j) + d) % M) (t j) ∧
      Function.update t j e ((home (t j) + d) % M) = e ∧
      (∀ d' < d, Function.update t j e ((home (t j) + d') % M) ≠ e) ∧
      ∀ d' ≤ d, ¬Ahead M s₀ k (i + 1) ((home (t j) + d') % M) := by
  have hjM : j < M := hj ▸ Nat.mod_lt _ (by omega)
  have htj : t j = tbl j := hm.same j ⟨i, Nat.le_refl i, Nat.le_of_lt hik, hj⟩
  obtain ⟨p, hp, hjp, hpath⟩ := h.path j hjM (htj ▸ hne)
  rw [← htj] at hjp hpath
  have hend : ¬Ahead M s₀ k (i + 1) ((home (t j) + p) % M) := by
    rw [← hjp]
    exact not_ahead_self hk hik hj
  have hcleared : Function.update t j e ((home (t j) + p) % M) = e := by
    rw [← hjp, Function.update_self]
  obtain ⟨d, hd, hscan, hslot, hbefore⟩ :=
    scan_of_stop (P := fun s => Function.update t j e s = e) hp (by simpa using hcleared)
  simp only [decide_eq_true_eq, decide_eq_false_iff_not] at hslot hbefore
  refine ⟨d, Nat.lt_of_le_of_lt hd hp, by rw [insert, hscan], hslot, hbefore, ?_⟩
  intro d' hd'
  exact path_avoids hgap hpath hend d' (Nat.le_trans hd' hd)

/-- **One iteration** of the loop. -/
theorem Mid.step (h : Holds M e tbl home S) {s₀ k i : ℕ} {t : ℕ → β} {S' : Set β} (hk : k < M) (hik : i < k)
    (hgap : tbl ((s₀ + k) % M) = e) (hm : Mid M e home tbl s₀ k i t S') {j : ℕ} (hj : j = (s₀ + i) % M)
    (hne : t j ≠ e) :
    Mid M e home tbl s₀ k (i + 1) (insert M e (Function.update t j e) (home (t j)) (t j)).1 S' := by
  obtain ⟨d, hd, hinsert, hslot, hbefore, havoid⟩ := hm.landing h hk hik hgap hj hne
  have hM : 0 < M := Nat.lt_of_le_of_lt (Nat.zero_le d) hd
  have hjM : j < M := hj ▸ Nat.mod_lt _ hM
  rw [hinsert]
  set x := t j with hx
  set q := (home x + d) % M with hq
  have hqM : q < M := Nat.mod_lt _ hM
  have hkeep : ∀ s, s ≠ j → t s ≠ e → Function.update (Function.update t j e) q x s ≠ e := by
    intro s hsj hs
    by_cases hsq : s = q
    · rwa [hsq, Function.update_self]
    · rwa [Function.update_of_ne hsq, Function.update_of_ne hsj]
  refine ⟨?_, ?_, ?_⟩
  · have hfill := (hm.toStores.clear hjM hne).fill hqM hslot (x := x) (fun hmem => hmem.2 rfl) hne
    rwa [Set.insert_sdiff_singleton, Set.insert_eq_of_mem (hm.sound j hjM hne)] at hfill
  · intro s hs
    have hsq : s ≠ q := by
      rintro rfl
      exact havoid d (Nat.le_refl d) hs
    have hsj : s ≠ j := by
      rintro rfl
      exact not_ahead_self hk hik hj hs
    rw [Function.update_of_ne hsq, Function.update_of_ne hsj]
    exact hm.same s hs.of_succ
  · intro s hs hnes hout
    by_cases hsq : s = q
    · rw [hsq, Function.update_self]
      refine ⟨d, hd, rfl, fun d' hd' => ⟨?_, havoid d' hd'⟩⟩
      rcases Nat.lt_or_eq_of_le hd' with hlt | rfl
      · have hocc := hbefore d' hlt
        have hdj : (home x + d') % M ≠ j := by
          intro heq
          rw [heq, Function.update_self] at hocc
          exact hocc rfl
        rw [Function.update_of_ne hdj] at hocc
        exact hkeep _ hdj hocc
      · rwa [Function.update_self]
    · have hsj : s ≠ j := by
        rintro rfl
        rw [Function.update_of_ne hsq, Function.update_self] at hnes
        exact hnes rfl
      rw [Function.update_of_ne hsq, Function.update_of_ne hsj] at hnes ⊢
      have hnot : ¬Ahead M s₀ k i s := by
        intro hahead
        rcases hahead.eq_or_succ with hself | hlater
        · exact hsj (hself.trans hj.symm)
        · exact hout hlater
      obtain ⟨p', hp', hsp', hpath'⟩ := hm.path s hs hnes hnot
      refine ⟨p', hp', hsp', fun d' hd' => ⟨?_, ?_⟩⟩
      · obtain ⟨hocc, hclear⟩ := hpath' d' hd'
        apply hkeep _ _ hocc
        intro heq
        exact hclear ⟨i, Nat.le_refl i, Nat.le_of_lt hik, heq.trans hj⟩
      · intro hahead
        exact (hpath' d' hd').2 hahead.of_succ

/-- the loop reaches the empty slot, with everything reachable again -/
theorem reinsert_holds (h : Holds M e tbl home S) {s₀ k : ℕ} (hk : k < M) (hgap : tbl ((s₀ + k) % M) = e)
    (hocc : ∀ i < k, tbl ((s₀ + i) % M) ≠ e) {S' : Set β} :
    ∀ (fuel i : ℕ) (t : ℕ → β), i ≤ k → k < i + fuel → Mid M e home tbl s₀ k i t S' →
      ∃ t', reinsert M e home fuel t ((s₀ + i) % M) = some t' ∧ Holds M e t' home S' := by
  intro fuel
  induction fuel with
  | zero =>
    intro i t hi hfuel
    omega
  | succ fuel ih =>
    intro i t hi hfuel hm
    have hti : t ((s₀ + i) % M) = tbl ((s₀ + i) % M) := hm.same _ ⟨i, Nat.le_refl i, hi, rfl⟩
    rcases Nat.lt_or_eq_of_le hi with hlt | rfl
    · have hne : ¬t ((s₀ + i) % M) = e := hti ▸ hocc i hlt
      rw [reinsert, if_neg hne, Nat.mod_add_mod, Nat.add_assoc]
      exact ih (i + 1) _ hlt (by omega) (hm.step h hk hlt hgap rfl hne)
    · rw [reinsert, if_pos (hti.trans hgap)]
      refine ⟨t, rfl, hm.toStores, ?_⟩
      intro s hs hne
      have hout : ¬Ahead M s₀ i i s := by
        rintro ⟨r, hir, hri, rfl⟩
        obtain rfl := Nat.le_antisymm hir hri
        exact hne (hti.trans hgap)
      obtain ⟨p, hp, hsp, hpath⟩ := hm.path s hs hne hout
      exact ⟨p, hp, hsp, fun d hd => (hpath d hd).1⟩

/-- **Removal.** With an empty slot in the table, the loop terminates, the entry is gone and the others stay
reachable. -/
theorem remove_holds (h : Holds M e tbl home S) (hroom : ∃ s < M, tbl s = e) {hit : β → Bool} {x : β} (hx : x ∈ S)
    (hhit : hit x = true) (honly : ∀ y ∈ S, hit y = true → y = x) :
    ∃ t, remove M e home tbl hit (home x) = some (t, true) ∧ Holds M e t home (S \ {x}) := by
  obtain ⟨s₀, hs₀, hscan, rfl⟩ := scan_found h hx hhit honly
  have hne : tbl s₀ ≠ e := by
    intro heq
    exact h.proper (heq ▸ hx)
  obtain ⟨s, hs, hempty⟩ := hroom
  obtain ⟨p, hp, rfl⟩ := exists_offset hs s₀
  have hex : ∃ k, tbl ((s₀ + k) % M) = e := ⟨p, hempty⟩
  set k := Nat.find hex
  have hgap : tbl ((s₀ + k) % M) = e := Nat.find_spec hex
  have hocc : ∀ i < k, tbl ((s₀ + i) % M) ≠ e := fun i hi => Nat.find_min hex hi
  have hk : k < M := Nat.lt_of_le_of_lt (Nat.find_min' hex hempty) hp
  have hpos : 1 ≤ k := by
    by_contra hzero
    obtain hk0 : k = 0 := by omega
    rw [hk0, Nat.add_zero, Nat.mod_eq_of_lt hs₀] at hgap
    exact hne hgap
  obtain ⟨t, ht, hholds⟩ :=
    reinsert_holds h hk hgap hocc M 1 _ hpos (by omega) (h.mid hs₀ hne hk hgap)
  refine ⟨t, ?_, hholds⟩
  simp only [remove, hscan, hne, if_false, ht, Option.map_some]

/-- an entry that is not stored is not removed -/
theorem remove_absent (h : Holds M e tbl home S) {hit : β → Bool} (hno : ∀ y ∈ S, hit y = false) (base : ℕ) :
    remove M e home tbl hit base = some (tbl, false) := by
  rw [remove]
  cases hscan : scan M (fun s => tbl s = e || hit (tbl s)) base with
  | none => rfl
  | some s => exact if_pos (scan_absent h hno hscan)

/-! ## Entries with distinct keys -/

section Keyed

variable {κ : Type} {key : β → κ} {hit : β → Bool} {ids l r : List β} {x : β}

theorem lookup_key (h : Holds M e tbl home {y | y ∈ ids}) (hkeys : (ids.map key).Nodup)
    (hhit : ∀ y ∈ ids, (hit y = true ↔ key y = key x)) (hx : x ∈ ids) : lookup M e tbl hit (home x) = x := by
  apply lookup_found h hx
  · exact (hhit x hx).2 rfl
  · intro y hy htest
    exact List.inj_on_of_nodup_map hkeys hy hx ((hhit y hy).1 htest)

theorem lookup_noKey (h : Holds M e tbl home {y | y ∈ ids}) {k : κ} (hhit : ∀ y ∈ ids, (hit y = true ↔ key y = k))
    (hk : ∀ y ∈ ids, key y ≠ k) (base : ℕ) : lookup M e tbl hit base = e := by
  apply lookup_absent h
  intro y hy
  rw [Bool.eq_false_iff]
  intro htest
  exact hk y hy ((hhit y hy).1 htest)

theorem remove_key (h : Holds M e tbl home {y | y ∈ l ++ x :: r}) (hroom : ∃ s < M, tbl s = e)
    (hkeys : ((l ++ x :: r).map key).Nodup) (hhit : ∀ y ∈ l ++ x :: r, (hit y = true ↔ key y = key x)) :
    ∃ t, remove M e home tbl hit (home x) = some (t, true) ∧ Holds M e t home {y | y ∈ l ++ r} := by
  have hx : x ∈ l ++ x :: r := by simp
  obtain ⟨t, hremove, hholds⟩ := remove_holds h hroom hx ((hhit x hx).2 rfl) fun y hy htest =>
    List.inj_on_of_nodup_map hkeys hy hx ((hhit y hy).1 htest)
  have hset : {y | y ∈ l ++ x :: r} \ {x} = {y | y ∈ l ++ r} := by
    have hnd := List.nodup_cons.1 (List.nodup_middle.1 (hkeys.of_map key))
    ext y
    simp only [Set.mem_sdiff, Set.mem_ofPred_eq, Set.mem_singleton_iff, List.perm_middle.mem_iff, List.mem_cons]
    constructor
    · rintro ⟨rfl | hy, hne⟩
      · exact absurd rfl hne
      · exact hy
    · intro hy
      refine ⟨Or.inr hy, ?_⟩
      rintro rfl
      exact hnd.1 hy
  exact ⟨t, hremove, hset ▸ hholds⟩

theorem insert_key (h : Holds M e tbl home {y | y ∈ ids}) (hroom : ∃ s < M, tbl s = e) (hx : x ∉ ids) (hxe : x ≠ e) :
    ∃ t, insert M e tbl (home x) x = (t, true) ∧ Holds M e t home {y | y ∈ x :: ids} := by
  obtain ⟨t, hinsert, hholds⟩ := insert_holds h hroom hx hxe
  have hset : Insert.insert x {y | y ∈ ids} = {y | y ∈ x :: ids} := by
    ext y
    simp
  exact ⟨t, hinsert, hset ▸ hholds⟩

end Keyed

end InterviewPrep.Probe
