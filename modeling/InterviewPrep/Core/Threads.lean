/-
What a family of threads holds together, when one of them moves.

Where each thread is, or what it carries, is a function `f` on threads, and a step replaces one value of it. A total over
all threads then changes by the difference of the two values: stated without subtraction (`sum_update`), so that it serves
for numbers and for multisets alike. Where a thread holds something or nothing, `update_some_eq_some` and
`update_none_eq_some` say who holds what after the step.
-/
import Mathlib.Tactic
import Mathlib.Algebra.BigOperators.Fin

namespace InterviewPrep

section Held

variable {ι α : Type} [DecidableEq ι] {f : ι → Option α} {i j : ι} {x y : α}

theorem update_some_eq_some : Function.update f i (some x) j = some y ↔ j = i ∧ x = y ∨ j ≠ i ∧ f j = some y := by
  rcases eq_or_ne j i with rfl | hne
  · simp
  · simp [hne]

theorem update_none_eq_some : Function.update f i none j = some y ↔ j ≠ i ∧ f j = some y := by
  rcases eq_or_ne j i with rfl | hne
  · simp
  · simp [hne]

end Held

variable {ι α M : Type} [Fintype ι] [DecidableEq ι] [AddCommMonoid M]

theorem sum_update (g : α → M) (f : ι → α) (i : ι) (x : α) :
    ∑ j, g (Function.update f i x j) + g (f i) = ∑ j, g (f j) + g x := by
  have hrest : ∑ j ∈ Finset.univ.erase i, g (Function.update f i x j) = ∑ j ∈ Finset.univ.erase i, g (f j) := by
    refine Finset.sum_congr rfl fun j hj => ?_
    rw [Function.update_of_ne (Finset.ne_of_mem_erase hj)]
  rw [← Finset.sum_erase_add _ _ (Finset.mem_univ i), ← Finset.sum_erase_add _ (fun j => g (f j)) (Finset.mem_univ i),
    hrest, Function.update_self]
  abel

end InterviewPrep
