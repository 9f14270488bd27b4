/-
The merge of two lists by a key.

`merge key xs ys` takes the smaller first element, and the one of `ys` on a tie. What `List.merge` has is used: it has all the
elements, and it is sorted if the lists are. The lists need not be sorted for `sublist_merge_left` and `sublist_merge_right`, which
say that their orders are kept; `pair_sublist_merge` says that ties are for `ys`.
-/
import Mathlib.Data.List.Sort

namespace InterviewPrep.StableMerge

variable {α κ : Type} [LinearOrder κ] (key : α → κ)

/-- the elements of `ys` come first on a tie -/
def merge (xs ys : List α) : List α := List.merge ys xs fun b a => decide (key b ≤ key a)

theorem merge_nil_left (ys : List α) : merge key [] ys = ys := List.merge_right ys

theorem merge_nil_right (xs : List α) : merge key xs [] = xs := List.nil_merge xs

variable {key} {a b : α} {xs ys : List α}

theorem merge_of_lt (h : key a < key b) : merge key (a :: xs) (b :: ys) = a :: merge key xs (b :: ys) :=
  List.cons_merge_cons_neg _ _ _ (by simpa using h)

theorem merge_of_le (h : key b ≤ key a) : merge key (a :: xs) (b :: ys) = b :: merge key (a :: xs) ys :=
  List.cons_merge_cons_pos _ _ _ (by simpa using h)

theorem merge_perm (key : α → κ) (xs ys : List α) : (merge key xs ys).Perm (xs ++ ys) :=
  (List.merge_perm_append _).trans List.perm_append_comm

theorem not_mem_merge (hxs : a ∉ xs) (hys : a ∉ ys) : a ∉ merge key xs ys := by
  rw [(merge_perm key xs ys).mem_iff, List.mem_append, not_or]
  exact ⟨hxs, hys⟩

theorem merge_sorted (hxs : xs.Pairwise fun a a' => key a ≤ key a') (hys : ys.Pairwise fun b b' => key b ≤ key b') :
    (merge key xs ys).Pairwise fun a b => key a ≤ key b := by
  have hsorted := @List.pairwise_merge α (fun b a => decide (key b ≤ key a)) (fun a b c => by simpa using le_trans)
    (fun a b => by simpa using le_total (key a) (key b)) ys xs (by simpa using hys) (by simpa using hxs)
  unfold merge
  simpa using hsorted

/-- the rule of induction for a merge -/
theorem merge_rec (key : α → κ) {P : List α → List α → Prop} (hleft : ∀ ys, P [] ys) (hright : ∀ xs, P xs [])
    (hlt : ∀ a xs b ys, key a < key b → P xs (b :: ys) → P (a :: xs) (b :: ys))
    (hle : ∀ a xs b ys, key b ≤ key a → P (a :: xs) ys → P (a :: xs) (b :: ys)) (xs ys : List α) : P xs ys := by
  induction xs generalizing ys with
  | nil => exact hleft ys
  | cons a xs ihxs =>
    induction ys with
    | nil => exact hright (a :: xs)
    | cons b ys ihys =>
      rcases lt_or_ge (key a) (key b) with h | h
      · exact hlt a xs b ys h (ihxs (b :: ys))
      · exact hle a xs b ys h ihys

theorem sublist_merge_left (xs ys : List α) : xs.Sublist (merge key xs ys) := by
  induction xs, ys using merge_rec key with
  | hleft ys => exact List.nil_sublist _
  | hright xs => rw [merge_nil_right]
  | hlt a xs b ys h ih => rw [merge_of_lt h]; exact ih.cons_cons a
  | hle a xs b ys h ih => rw [merge_of_le h]; exact ih.cons b

theorem sublist_merge_right (xs ys : List α) : ys.Sublist (merge key xs ys) := by
  induction xs, ys using merge_rec key with
  | hleft ys => rw [merge_nil_left]
  | hright xs => exact List.nil_sublist _
  | hlt a xs b ys h ih => rw [merge_of_lt h]; exact ih.cons a
  | hle a xs b ys h ih => rw [merge_of_le h]; exact ih.cons_cons b

/-- equal elements of sorted lists: those of the second come first -/
theorem pair_sublist_merge (hys : ys.Pairwise fun b b' => key b ≤ key b') (ha : a ∈ xs) (hb : b ∈ ys) (hab : key b = key a) :
    [b, a].Sublist (merge key xs ys) := by
  induction xs, ys using merge_rec key with
  | hleft ys => cases ha
  | hright xs => cases hb
  | hlt a' xs b' ys h ih =>
    rw [merge_of_lt h]
    rcases List.mem_cons.1 ha with rfl | ha
    · -- the first of `xs` is less than everything in `ys`
      rcases List.mem_cons.1 hb with rfl | hb'
      · exact absurd hab h.ne'
      · have hle := (List.pairwise_cons.1 hys).1 b hb'
        exact absurd hab (h.trans_le hle).ne'
    · exact (ih hys ha hb).cons a'
  | hle a' xs b' ys h ih =>
    rw [merge_of_le h]
    rcases List.mem_cons.1 hb with rfl | hb
    · exact (List.singleton_sublist.2 ((sublist_merge_left _ ys).subset ha)).cons_cons b
    · exact (ih (List.pairwise_cons.1 hys).2 ha hb).cons b'

end InterviewPrep.StableMerge
