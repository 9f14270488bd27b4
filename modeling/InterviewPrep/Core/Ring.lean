/-
Doubly linked lists through a sentinel, over arbitrary cells.

`nxt` and `prv` are the two link functions, `z` is the sentinel: `nxt z` is the first cell of the list and `prv z` the
last (the `head` and `tail` of an index-linked list, with the null index as sentinel).

`Ring nxt prv z xs`: the cells of the list are exactly `xs`, in order. Shifting `z :: xs` by one gives `xs ++ [z]`, so
both link functions are described by one equation each.

Results:
- `prv_nxt`, `nxt_prv`: the links are inverse to each other on the ring;
- `reverse`: the same cells read the other way round, which halves every proof about `prv`;
- `unlink`, `pushFront`: the two pointer manipulations, stated for link functions that agree with the updated ones
  wherever it matters;
- `follow_next`, `follow_prev`: following the links from the sentinel visits exactly the cells.
-/
import Mathlib.Tactic

namespace InterviewPrep

/-- the cells linked into a circle through `z` are `xs` -/
structure Ring {α : Type} (nxt prv : α → α) (z : α) (xs : List α) : Prop where
  nodup : (z :: xs).Nodup
  next : (z :: xs).map nxt = xs ++ [z]
  prev : (xs ++ [z]).map prv = z :: xs

namespace Ring

variable {α : Type} {nxt prv nxt' prv' : α → α} {z x : α} {xs l r : List α}

/-- follow the links from `x` until the sentinel; `none`: more than `fuel` cells -/
def follow [DecidableEq α] (nxt : α → α) (z : α) : ℕ → α → Option (List α)
  | 0, _ => none
  | fuel + 1, x => if x = z then some [] else (follow nxt z fuel (nxt x)).map (x :: ·)

/-! ## Reading the links -/

theorem sentinel_notMem (h : Ring nxt prv z xs) : z ∉ xs := (List.nodup_cons.1 h.nodup).1

theorem prv_nxt (h : Ring nxt prv z xs) (hx : x ∈ z :: xs) : prv (nxt x) = x := by
  have hround : (z :: xs).map (prv ∘ nxt) = (z :: xs).map id := by
    rw [← List.map_map, h.next, h.prev, List.map_id]
  exact List.map_inj_left.1 hround x hx

/-- the same circle read backwards -/
theorem reverse (h : Ring nxt prv z xs) : Ring prv nxt z xs.reverse where
  nodup := by
    rw [List.nodup_cons, List.mem_reverse, List.nodup_reverse, ← List.nodup_cons]
    exact h.nodup
  next := by
    rw [← List.reverse_concat', List.map_reverse, h.prev, List.reverse_cons]
  prev := by
    rw [← List.reverse_cons, List.map_reverse, h.next, List.reverse_append, List.reverse_singleton,
      List.singleton_append]

theorem nxt_prv (h : Ring nxt prv z xs) (hx : x ∈ z :: xs) : nxt (prv x) = x :=
  h.reverse.prv_nxt (by simpa using hx)

theorem nxt_mem (h : Ring nxt prv z xs) (hx : x ∈ z :: xs) : nxt x ∈ z :: xs := by
  have hmem : nxt x ∈ xs ++ [z] := h.next ▸ List.mem_map_of_mem hx
  simpa [or_comm] using hmem

theorem nxt_eq_iff (h : Ring nxt prv z xs) {y : α} (hx : x ∈ z :: xs) (hy : y ∈ z :: xs) :
    nxt x = y ↔ prv y = x := by
  constructor
  · rintro rfl
    exact h.prv_nxt hx
  · rintro rfl
    exact h.nxt_prv hy

theorem nxt_mem_rest (h : Ring nxt prv z (l ++ x :: r)) : nxt x ∈ r ++ [z] := by
  have hnext := h.next
  rw [← List.cons_append, List.map_append, List.map_cons, List.append_cons l x r, List.append_assoc] at hnext
  have hrest := (List.append_inj hnext (by simp)).2
  rw [← hrest]
  exact List.mem_cons_self

theorem middle_notMem (h : Ring nxt prv z (l ++ x :: r)) : x ∉ z :: (l ++ r) := by
  have hperm : (z :: (l ++ x :: r)).Perm (x :: z :: (l ++ r)) :=
    (List.perm_middle.cons z).trans (List.Perm.swap x z (l ++ r))
  exact (List.nodup_cons.1 (hperm.nodup_iff.1 h.nodup)).1

theorem nxt_ne_self (h : Ring nxt prv z xs) (hx : x ∈ xs) : nxt x ≠ x := by
  obtain ⟨l, r, rfl⟩ := List.append_of_mem hx
  have hmem := h.nxt_mem_rest
  intro heq
  rw [heq, List.mem_append, List.mem_singleton] at hmem
  apply h.middle_notMem
  rcases hmem with hmem | rfl
  · exact List.mem_cons_of_mem z (List.mem_append_right l hmem)
  · exact List.mem_cons_self

theorem first (h : Ring nxt prv z (x :: xs)) : nxt z = x := (List.cons_eq_cons.1 h.next).1

theorem last (h : Ring nxt prv z (xs ++ [x])) : prv z = x := by
  have hrev : Ring prv nxt z (x :: xs.reverse) := by simpa using h.reverse
  exact hrev.first

theorem first_eq (h : Ring nxt prv z (l ++ x :: r)) (hx : nxt z = x) : l = [] := by
  cases l with
  | nil => rfl
  | cons y l =>
    have hy : nxt z = y := h.first
    have hnd := (List.nodup_cons.1 h.nodup).2
    rw [← hy, hx, List.cons_append, List.nodup_cons] at hnd
    simp at hnd

theorem follow_congr [DecidableEq α] (h : ∀ x, x ≠ z → nxt' x = nxt x) (fuel : ℕ) (x : α) :
    follow nxt' z fuel x = follow nxt z fuel x := by
  induction fuel generalizing x with
  | zero => rfl
  | succ fuel ih =>
    rw [follow, follow]
    split_ifs with hx
    · rfl
    · rw [h x hx, ih]

/-- only the links forward matter, from any cell before the list -/
theorem follow_map [DecidableEq α] {y : α} {ys : List α} (hlinks : (y :: ys).map nxt = ys ++ [z]) (hz : z ∉ ys)
    {fuel : ℕ} (hfuel : ys.length < fuel) : follow nxt z fuel (nxt y) = some ys := by
  induction ys generalizing y fuel with
  | nil =>
    obtain ⟨fuel, rfl⟩ : ∃ k, fuel = k + 1 := ⟨fuel - 1, by simp at hfuel; omega⟩
    have hy : nxt y = z := by simpa using hlinks
    rw [hy, follow, if_pos rfl]
  | cons y' ys ih =>
    obtain ⟨fuel, rfl⟩ : ∃ k, fuel = k + 1 := ⟨fuel - 1, by simp at hfuel; omega⟩
    rw [List.map_cons, List.cons_append, List.cons_eq_cons] at hlinks
    obtain ⟨hne, hz⟩ := List.ne_and_not_mem_of_not_mem_cons hz
    rw [hlinks.1, follow, if_neg (Ne.symm hne), ih hlinks.2 hz (by simpa using hfuel), Option.map_some]

theorem follow_next [DecidableEq α] (h : Ring nxt prv z xs) {fuel : ℕ} (hfuel : xs.length < fuel) :
    follow nxt z fuel (nxt z) = some xs := follow_map h.next h.sentinel_notMem hfuel

theorem follow_prev [DecidableEq α] (h : Ring nxt prv z xs) {fuel : ℕ} (hfuel : xs.length < fuel) :
    follow prv z fuel (prv z) = some xs.reverse :=
  h.reverse.follow_next (by simpa using hfuel)

/-! ## Changing the links -/

theorem congr (h : Ring nxt prv z xs) (hn : ∀ a ∈ z :: xs, nxt' a = nxt a) (hp : ∀ a ∈ z :: xs, prv' a = prv a) :
    Ring nxt' prv' z xs where
  nodup := h.nodup
  next := by rw [List.map_congr_left hn, h.next]
  prev := by
    rw [← h.prev]
    refine List.map_congr_left fun a ha => hp a ?_
    simpa [or_comm] using ha

/-- the forward half of unlinking: the cell before `x` now leads to the cell after it -/
theorem unlink_next (h : Ring nxt prv z (l ++ x :: r)) (hprv : nxt' (prv x) = nxt x)
    (hkeep : ∀ a, a ≠ x → a ≠ prv x → nxt' a = nxt a) : (z :: (l ++ r)).map nxt' = l ++ r ++ [z] := by
  have hnd := h.nodup
  have hnext := h.next
  obtain ⟨A, a, hA⟩ : ∃ A a, z :: l = A ++ [a] :=
    ⟨(z :: l).dropLast, _, (List.dropLast_concat_getLast (List.cons_ne_nil z l)).symm⟩
  have hlen : A.length = l.length := by simpa using (congrArg List.length hA).symm
  rw [← List.cons_append, hA] at hnd hnext
  simp only [List.append_assoc, List.map_append, List.map_cons, List.cons_append, List.nil_append]
    at hnext
  -- the equation for `nxt`, cut before and after `x`
  obtain ⟨hl, hrest⟩ := List.append_inj hnext (by rw [List.length_map, hlen])
  obtain ⟨ha, hr⟩ := List.cons_eq_cons.1 hrest
  have hprvx : prv x = a := by
    rw [← ha]
    refine h.prv_nxt ?_
    rw [← List.cons_append, hA]
    simp
  rw [hprvx] at hprv hkeep
  have hfresh : ∀ b ∈ A ++ r, b ≠ x ∧ b ≠ a := by
    intro b hb
    simp only [List.append_assoc, List.cons_append, List.nil_append] at hnd
    have hperm : (A ++ a :: x :: r).Perm (a :: x :: (A ++ r)) :=
      List.perm_middle.trans (List.perm_middle.cons a)
    have hnd' := hperm.nodup_iff.1 hnd
    constructor
    · rintro rfl
      exact (List.nodup_cons.1 (List.nodup_cons.1 hnd').2).1 hb
    · rintro rfl
      exact (List.nodup_cons.1 hnd').1 (List.mem_cons_of_mem x hb)
  have hsame : ∀ b ∈ A ++ r, nxt' b = nxt b := fun b hb => hkeep b (hfresh b hb).1 (hfresh b hb).2
  calc (z :: (l ++ r)).map nxt' = A.map nxt' ++ nxt' a :: r.map nxt' := by
        rw [← List.cons_append, hA]
        simp
    _ = A.map nxt ++ nxt x :: r.map nxt := by
        rw [hprv, List.map_congr_left fun b hb => hsame b (List.mem_append_left r hb),
          List.map_congr_left fun b hb => hsame b (List.mem_append_right A hb)]
    _ = l ++ r ++ [z] := by rw [hl, hr, List.append_assoc]

/-- **Unlinking a cell.** Its own links are irrelevant afterwards. -/
theorem unlink (h : Ring nxt prv z (l ++ x :: r)) (hn : nxt' (prv x) = nxt x) (hp : prv' (nxt x) = prv x)
    (hnkeep : ∀ a, a ≠ x → a ≠ prv x → nxt' a = nxt a) (hpkeep : ∀ a, a ≠ x → a ≠ nxt x → prv' a = prv a) :
    Ring nxt' prv' z (l ++ r) where
  nodup := h.nodup.sublist (((List.sublist_cons_self x r).append_left l).cons_cons z)
  next := h.unlink_next hn hnkeep
  prev := by
    have hrev : Ring prv nxt z (r.reverse ++ x :: l.reverse) := by simpa using h.reverse
    have hback := congrArg List.reverse (hrev.unlink_next hp hpkeep)
    simpa using hback

/-- **Linking a new cell in at the front.** -/
theorem pushFront (h : Ring nxt prv z xs) (hx : x ∉ z :: xs) (hz : nxt' z = x) (hnx : nxt' x = nxt z)
    (hpx : prv' x = z) (hfirst : prv' (nxt z) = x) (hnkeep : ∀ a, a ≠ x → a ≠ z → nxt' a = nxt a)
    (hpkeep : ∀ a, a ≠ x → a ≠ nxt z → prv' a = prv a) : Ring nxt' prv' z (x :: xs) where
  nodup := (List.Perm.swap x z xs).nodup_iff.2 (List.nodup_cons.2 ⟨hx, h.nodup⟩)
  next := by
    have hnext := h.next
    have hsame : xs.map nxt' = xs.map nxt := by
      refine List.map_congr_left fun a ha => hnkeep a ?_ ?_
      · rintro rfl
        exact hx (List.mem_cons_of_mem z ha)
      · rintro rfl
        exact h.sentinel_notMem ha
    rw [List.map_cons, List.map_cons, hz, hnx, hsame, List.cons_append, ← hnext, List.map_cons]
  prev := by
    -- the first cell of the circle after `z` is the only one that changes its predecessor
    obtain ⟨y, ys, hys⟩ : ∃ y ys, xs ++ [z] = y :: ys := List.exists_cons_of_ne_nil (by simp)
    have hy : nxt z = y := (List.cons_eq_cons.1 (h.next.trans hys)).1
    have hnd : (y :: ys).Nodup := hys ▸ (List.perm_append_singleton z xs).nodup_iff.2 h.nodup
    have hprev := h.prev
    rw [hys, List.map_cons] at hprev
    have hsame : ys.map prv' = ys.map prv := by
      refine List.map_congr_left fun a ha => hpkeep a ?_ ?_
      · rintro rfl
        have hmem : a ∈ xs ++ [z] := hys ▸ List.mem_cons_of_mem y ha
        exact hx (by simpa [or_comm] using hmem)
      · rintro rfl
        exact (List.nodup_cons.1 hnd).1 (hy ▸ ha)
    rw [List.cons_append, List.map_cons, hpx, hys, List.map_cons, ← hy, hfirst, hsame, (List.cons_eq_cons.1 hprev).2]

end Ring

end InterviewPrep
