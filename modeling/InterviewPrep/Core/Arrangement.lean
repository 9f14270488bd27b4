/-
Rearrangements of a list in lexicographic order.

- `le_of_perm_ascending`, `le_of_perm_descending`: a list that ascends is the least of its rearrangements, one that descends the
  greatest;
- `exists_pivot`: every other list has a last place where it ascends, and after it a last element that is greater;
- `Pivot.isLeast_next`: with these two exchanged and what follows turned around, it is the next one.
-/
import Mathlib.Data.List.Lex
import Mathlib.Tactic

namespace InterviewPrep.Arrangement

variable {α : Type} [LinearOrder α] {l m p u v s : List α} {x y : α}

/-- the rearrangements of `l` that are greater than `l` -/
def greater (l : List α) : Set (List α) := {m | m.Perm l ∧ l < m}

theorem cons_le_cons_of_le (hxy : x ≤ y) (h : x = y → l ≤ m) : x :: l ≤ y :: m := by
  rcases hxy.lt_or_eq with hlt | rfl
  · exact (List.cons_lt_cons_iff.2 (Or.inl hlt)).le
  · exact List.cons_le_cons x (h rfl)

theorem le_of_perm_ascending (hs : s.Pairwise (· ≤ ·)) (hm : m.Perm s) : s ≤ m := by
  induction s generalizing m with
  | nil => exact hm.eq_nil ▸ le_rfl
  | cons x s ih =>
    rw [List.pairwise_cons] at hs
    cases m with
    | nil => cases hm.symm.eq_nil
    | cons y m =>
      have hxy : x ≤ y := by
        rcases List.mem_cons.1 (hm.subset List.mem_cons_self) with rfl | hy
        · exact le_rfl
        · exact hs.1 y hy
      refine cons_le_cons_of_le hxy ?_
      rintro rfl
      exact ih hs.2 hm.cons_inv

theorem le_of_perm_descending (hs : s.Pairwise (· ≥ ·)) (hm : m.Perm s) : m ≤ s := by
  induction s generalizing m with
  | nil => exact hm.eq_nil ▸ le_rfl
  | cons x s ih =>
    rw [List.pairwise_cons] at hs
    cases m with
    | nil => cases hm.symm.eq_nil
    | cons y m =>
      have hyx : y ≤ x := by
        rcases List.mem_cons.1 (hm.subset List.mem_cons_self) with rfl | hy
        · exact le_rfl
        · exact hs.1 y hy
      refine cons_le_cons_of_le hyx ?_
      rintro rfl
      exact ih hs.2 hm.cons_inv

/-- nothing comes after the list that descends -/
theorem greater_descending (hs : s.Pairwise (· ≥ ·)) : greater s = ∅ :=
  Set.eq_empty_of_forall_notMem fun _ hm => (le_of_perm_descending hs hm.1).not_gt hm.2

/-- `x` is the last element that is less than the one after it, and `y` the last one that is greater than `x` -/
structure Pivot (x : α) (u : List α) (y : α) (v : List α) : Prop where
  descending : (u ++ y :: v).Pairwise (· ≥ ·)
  less : x < y
  rest : ∀ z ∈ v, z ≤ x

/-- in a list that descends, what is greater than `x` comes first -/
theorem exists_pivot_of_lt (hs : s.Pairwise (· ≥ ·)) (hx : ∃ z ∈ s, x < z) : ∃ u y v, s = u ++ y :: v ∧ Pivot x u y v := by
  induction s with
  | nil =>
    obtain ⟨z, hz, -⟩ := hx
    cases hz
  | cons b s ih =>
    have hb := (List.pairwise_cons.1 hs).1
    by_cases hmore : ∃ z ∈ s, x < z
    · obtain ⟨u, y, v, rfl, h⟩ := ih (List.pairwise_cons.1 hs).2 hmore
      exact ⟨b :: u, y, v, rfl, hs, h.less, h.rest⟩
    · push Not at hmore
      refine ⟨[], b, s, rfl, hs, ?_, hmore⟩
      obtain ⟨z, hz, hxz⟩ := hx
      rcases List.mem_cons.1 hz with rfl | hz
      · exact hxz
      · exact absurd hxz (hmore z hz).not_gt

theorem exists_pivot (l : List α) : l.Pairwise (· ≥ ·) ∨ ∃ p x u y v, l = p ++ x :: (u ++ y :: v) ∧ Pivot x u y v := by
  induction l with
  | nil => exact Or.inl List.Pairwise.nil
  | cons x l ih =>
    rcases ih with hdesc | ⟨p, x', u, y, v, rfl, h⟩
    · by_cases hx : ∀ z ∈ l, x ≥ z
      · exact Or.inl (List.pairwise_cons.2 ⟨hx, hdesc⟩)
      · push Not at hx
        obtain ⟨u, y, v, rfl, h⟩ := exists_pivot_of_lt hdesc hx
        exact Or.inr ⟨[], x, u, y, v, rfl, h⟩
    · exact Or.inr ⟨x :: p, x', u, y, v, rfl, h⟩

/-- the next rearrangement -/
def next (p : List α) (x : α) (u : List α) (y : α) (v : List α) : List α := p ++ y :: (u ++ x :: v).reverse

omit [LinearOrder α] in
theorem perm_next (p : List α) (x : α) (u : List α) (y : α) (v : List α) : (next p x u y v).Perm (p ++ x :: (u ++ y :: v)) := by
  refine List.Perm.append_left p ?_
  calc List.Perm (y :: (u ++ x :: v).reverse) (y :: (u ++ x :: v)) := (List.reverse_perm _).cons y
    List.Perm _ (y :: x :: (u ++ v)) := List.perm_middle.cons y
    List.Perm _ (x :: y :: (u ++ v)) := List.Perm.swap x y _
    List.Perm _ (x :: (u ++ y :: v)) := List.perm_middle.symm.cons x

namespace Pivot

theorem ascending (h : Pivot x u y v) : ((u ++ x :: v).reverse).Pairwise (· ≤ ·) := by
  obtain ⟨hdesc, hxy, hrest⟩ := h
  rw [List.pairwise_reverse]
  rw [List.pairwise_append, List.pairwise_cons] at hdesc ⊢
  obtain ⟨hu, ⟨hy, hv⟩, huv⟩ := hdesc
  refine ⟨hu, ⟨hrest, hv⟩, fun a ha b hb => ?_⟩
  rcases List.mem_cons.1 hb with rfl | hb
  · exact hxy.le.trans (huv a ha y List.mem_cons_self)
  · exact huv a ha b (List.mem_cons_of_mem y hb)

theorem lt_next (h : Pivot x u y v) (p : List α) : p ++ x :: (u ++ y :: v) < next p x u y v :=
  List.append_left_lt (List.cons_lt_cons_iff.2 (Or.inl h.less))

/-- the least of the elements after `x` that are greater than `x` is `y` -/
theorem le_of_mem (h : Pivot x u y v) {z : α} (hz : z ∈ u ++ y :: v) (hxz : x < z) : y ≤ z := by
  have hdesc := h.descending
  rw [List.pairwise_append] at hdesc
  rcases List.mem_append.1 hz with hz | hz
  · exact hdesc.2.2 z hz y List.mem_cons_self
  · rcases List.mem_cons.1 hz with rfl | hz
    · exact le_rfl
    · exact absurd hxz (h.rest z hz).not_gt

/-- a greater rearrangement that differs from the list at `x` -/
theorem next_le_at (h : Pivot x u y v) (hm : m.Perm (x :: (u ++ y :: v))) (hlt : x :: (u ++ y :: v) < m) :
    y :: (u ++ x :: v).reverse ≤ m := by
  cases m with
  | nil => cases hm.symm.eq_nil
  | cons z m =>
    rcases List.cons_lt_cons_iff.1 hlt with hxz | ⟨rfl, hrest⟩
    · have hz : z ∈ u ++ y :: v := by
        rcases List.mem_cons.1 (hm.subset List.mem_cons_self) with rfl | hz
        · exact absurd hxz (lt_irrefl _)
        · exact hz
      refine cons_le_cons_of_le (h.le_of_mem hz hxz) ?_
      rintro rfl
      -- what is left ascends, so it is the least arrangement of it
      have hperm := hm.trans (perm_next [] x u y v).symm
      exact le_of_perm_ascending h.ascending hperm.cons_inv
    · exact absurd hrest (le_of_perm_descending h.descending hm.cons_inv).not_gt

theorem next_le (h : Pivot x u y v) (hm : m.Perm (p ++ x :: (u ++ y :: v))) (hlt : p ++ x :: (u ++ y :: v) < m) :
    next p x u y v ≤ m := by
  induction p generalizing m with
  | nil => exact h.next_le_at hm hlt
  | cons c p ih =>
    cases m with
    | nil => cases hm.symm.eq_nil
    | cons d m =>
      rcases List.cons_lt_cons_iff.1 hlt with hcd | ⟨rfl, hrest⟩
      · exact (List.cons_lt_cons_iff.2 (Or.inl hcd)).le
      · exact List.cons_le_cons c (ih hm.cons_inv hrest)

/-- **The next rearrangement** -/
theorem isLeast_next (h : Pivot x u y v) (p : List α) : IsLeast (greater (p ++ x :: (u ++ y :: v))) (next p x u y v) :=
  ⟨⟨perm_next p x u y v, h.lt_next p⟩, fun _ hm => h.next_le hm.1 hm.2⟩

end Pivot

end InterviewPrep.Arrangement
