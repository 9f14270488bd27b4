/-
Collecting the pieces of a target set, with a fresh start after every completion.

The collector holds the pieces it has seen since the last completion and counts completions. A piece that completes the
target empties the holdings. This is the abstract behaviour of any reassembly buffer that is thrown away on completion:
duplicates of held pieces are absorbed, duplicates after a completion start over.

`pieces` is any list of pieces of the target, in order of arrival.
- `collect_partial`: until the target is covered, the holdings are the pieces seen and nothing has been completed;
- `collect_last`: the piece that covers the target completes it, once, and leaves nothing;
- `collect_early`: if every piece arrives while something is missing, these two cases are all there is;
- `once_iff`: over all prefixes, "at most one completion, and nothing held after it" holds exactly when no piece arrives
  after the target is covered.
-/
import Mathlib.Tactic

namespace InterviewPrep.Collect

variable {ι : Type} [DecidableEq ι]

/-- pieces held and completions counted -/
structure St (ι : Type) where
  held : Finset ι
  done : ℕ

def init : St ι := ⟨∅, 0⟩

def step (target : Finset ι) (s : St ι) (i : ι) : St ι :=
  if insert i s.held = target then ⟨∅, s.done + 1⟩ else ⟨insert i s.held, s.done⟩

def collect (target : Finset ι) (pieces : List ι) : St ι := pieces.foldl (step target) init

/-- every piece arrives while some piece of the target is still missing -/
def Early (target : Finset ι) (pieces : List ι) : Prop :=
  ∀ pre i post, pieces = pre ++ i :: post → ¬target ⊆ pre.toFinset

/-- at most one completion, and nothing held after it -/
def Once (target : Finset ι) (pieces : List ι) : Prop :=
  ∀ pre, pre <+: pieces → (collect target pre).done ≤ 1 ∧ (0 < (collect target pre).done → (collect target pre).held = ∅)

variable {target : Finset ι} {pieces : List ι}

theorem collect_snoc (pieces : List ι) (i : ι) :
    collect target (pieces ++ [i]) = step target (collect target pieces) i := by
  rw [collect, List.foldl_append]
  rfl

theorem toFinset_snoc (pieces : List ι) (i : ι) : (pieces ++ [i]).toFinset = insert i pieces.toFinset := by
  ext j
  simp

theorem held_subset (hsub : ∀ i ∈ pieces, i ∈ target) : (collect target pieces).held ⊆ target := by
  induction pieces using List.reverseRecOn with
  | nil => exact Finset.empty_subset target
  | append_singleton pieces i ih =>
    have hprev := ih fun j hj => hsub j (List.mem_append_left _ hj)
    rw [collect_snoc, step]
    split_ifs
    · exact Finset.empty_subset target
    · exact Finset.insert_subset (hsub i (by simp)) hprev

/-! ## Until the first completion -/

theorem collect_partial (hsub : ∀ i ∈ pieces, i ∈ target) (hmiss : ¬target ⊆ pieces.toFinset) :
    collect target pieces = ⟨pieces.toFinset, 0⟩ := by
  induction pieces using List.reverseRecOn with
  | nil => rfl
  | append_singleton pieces i ih =>
    have hmiss' : ¬target ⊆ pieces.toFinset := by
      intro hcover
      apply hmiss
      rw [toFinset_snoc]
      exact hcover.trans (Finset.subset_insert i _)
    have hprev := ih (fun j hj => hsub j (List.mem_append_left _ hj)) hmiss'
    rw [collect_snoc, hprev, step, if_neg, toFinset_snoc]
    intro hall
    apply hmiss
    rw [toFinset_snoc, hall]

theorem collect_last {i : ι} (hsub : ∀ j ∈ pieces ++ [i], j ∈ target) (hmiss : ¬target ⊆ pieces.toFinset)
    (hcover : target ⊆ (pieces ++ [i]).toFinset) : collect target (pieces ++ [i]) = ⟨∅, 1⟩ := by
  have hprev := collect_partial (fun j hj => hsub j (List.mem_append_left _ hj)) hmiss
  have hall : insert i pieces.toFinset = target := by
    rw [← toFinset_snoc]
    apply Finset.Subset.antisymm _ hcover
    intro j hj
    exact hsub j (List.mem_toFinset.1 hj)
  rw [collect_snoc, hprev, step, if_pos hall]

/-- without late pieces the collector is before its completion, or exactly at it -/
theorem collect_early (hne : target.Nonempty) (hsub : ∀ i ∈ pieces, i ∈ target) (hearly : Early target pieces) :
    collect target pieces = if target ⊆ pieces.toFinset then ⟨∅, 1⟩ else ⟨pieces.toFinset, 0⟩ := by
  rcases List.eq_nil_or_concat pieces with rfl | ⟨pre, i, rfl⟩
  · have hmiss : ¬target ⊆ ([] : List ι).toFinset := by
      rw [List.toFinset_nil, Finset.subset_empty]
      exact hne.ne_empty
    rw [if_neg hmiss]
    rfl
  · rw [List.concat_eq_append] at *
    split_ifs with hcover
    · exact collect_last hsub (hearly pre i [] rfl) hcover
    · exact collect_partial hsub hcover

/-! ## After it -/

/-- the first moment the target is covered -/
theorem exists_first_cover (hne : target.Nonempty) (hcover : target ⊆ pieces.toFinset) :
    ∃ pre i post, pieces = pre ++ i :: post ∧ ¬target ⊆ pre.toFinset ∧ target ⊆ (pre ++ [i]).toFinset := by
  induction pieces using List.reverseRecOn with
  | nil =>
    rw [List.toFinset_nil, Finset.subset_empty] at hcover
    exact absurd hcover hne.ne_empty
  | append_singleton pieces i ih =>
    by_cases hprev : target ⊆ pieces.toFinset
    · obtain ⟨pre, j, post, rfl, hmiss, hfirst⟩ := ih hprev
      exact ⟨pre, j, post ++ [i], by simp, hmiss, hfirst⟩
    · exact ⟨pieces, i, [], rfl, hprev, hcover⟩

theorem Early.of_prefix {pre : List ι} (h : Early target pieces) (hpre : pre <+: pieces) : Early target pre := by
  obtain ⟨post, rfl⟩ := hpre
  intro l j r heq
  exact h l j (r ++ post) (by rw [heq]; simp)

theorem once_of_early (hne : target.Nonempty) (hsub : ∀ i ∈ pieces, i ∈ target) (hearly : Early target pieces) :
    Once target pieces := by
  intro pre hpre
  rw [collect_early hne (fun i hi => hsub i (hpre.subset hi)) (hearly.of_prefix hpre)]
  split_ifs
  · exact ⟨Nat.le_refl 1, fun _ => rfl⟩
  · exact ⟨Nat.zero_le 1, fun h => absurd h (Nat.lt_irrefl 0)⟩

/-- a piece that arrives after a completion is either a second completion or held -/
theorem not_once_of_late (hne : target.Nonempty) (hsub : ∀ i ∈ pieces, i ∈ target) (hlate : ¬Early target pieces) :
    ¬Once target pieces := by
  intro honce
  unfold Early at hlate
  push Not at hlate
  obtain ⟨pre, i, post, rfl, hcover⟩ := hlate
  obtain ⟨l, j, r, rfl, hmiss, hfirst⟩ := exists_first_cover hne hcover
  -- the piece after the first completion, wherever the given late piece stands
  obtain ⟨k, rest, hk⟩ : ∃ k rest, r ++ i :: post = k :: rest := List.exists_cons_of_ne_nil (by simp)
  have hpieces : l ++ j :: r ++ i :: post = (l ++ [j]) ++ [k] ++ rest := by
    simp [hk]
  have hdone : collect target (l ++ [j]) = ⟨∅, 1⟩ := by
    refine collect_last ?_ hmiss hfirst
    intro x hx
    apply hsub
    rw [hpieces]
    exact List.mem_append_left _ (List.mem_append_left _ hx)
  obtain ⟨hle, hempty⟩ := honce ((l ++ [j]) ++ [k]) ⟨rest, hpieces.symm⟩
  rw [collect_snoc, hdone, step] at hle hempty
  split_ifs at hle hempty
  · exact absurd hle (by simp)
  · exact Finset.insert_ne_empty k ∅ (hempty Nat.one_pos)

/-- **Completed once exactly if nothing comes late.** -/
theorem once_iff (hsub : ∀ i ∈ pieces, i ∈ target) : Once target pieces ↔ Early target pieces := by
  rcases target.eq_empty_or_nonempty with rfl | hne
  · -- no pieces at all
    obtain rfl : pieces = [] := List.eq_nil_iff_forall_not_mem.2 fun i hi => absurd (hsub i hi) (Finset.notMem_empty i)
    constructor
    · intro _ pre i post heq
      simp at heq
    · intro _ pre hpre
      rw [List.prefix_nil.1 hpre]
      exact ⟨Nat.zero_le 1, fun h => absurd h (Nat.lt_irrefl 0)⟩
  · constructor
    · intro honce
      by_contra hlate
      exact not_once_of_late hne hsub hlate honce
    · exact once_of_early hne hsub

end InterviewPrep.Collect
