/-
Squares in the plane.

Vectors are pairs over an ordered ring. `Square a b c d`: the corners in this order. Its sides and diagonals have the lengths one
expects (`Square.sqDist_eq`); the other direction goes through the distances between any two of four points (`distances`), which do
not depend on the order of the points:
- `exists_naming`: four of them the same and the other two the same are the distances of a quadrilateral, or the two have a
  common end;
- `square_of_sqDist` and `not_shared`: the quadrilateral is a square, and the other arrangement is not possible.
-/
import Mathlib.Algebra.Order.Ring.Defs
import Mathlib.Data.Multiset.MapFold
import Mathlib.Tactic

namespace InterviewPrep.Plane

/-! ## Vectors -/

section Vectors

variable {R : Type} [CommRing R]

def dot (u v : R × R) : R := u.1 * v.1 + u.2 * v.2

def cross (u v : R × R) : R := u.1 * v.2 - u.2 * v.1

/-- by 90 degrees -/
def rot (u : R × R) : R × R := (-u.2, u.1)

/-- the square of the distance -/
def sqDist (u v : R × R) : R := dot (u - v) (u - v)

variable (u v w : R × R)

theorem sqDist_comm : sqDist u v = sqDist v u := by
  simp only [sqDist, dot, Prod.fst_sub, Prod.snd_sub]
  ring

theorem sqDist_eq : sqDist u v = dot u u - 2 * dot u v + dot v v := by
  simp only [sqDist, dot, Prod.fst_sub, Prod.snd_sub]
  ring

/-- the law of cosines -/
theorem two_mul_dot : 2 * dot (u - w) (v - w) = sqDist u w + sqDist v w - sqDist u v := by
  simp only [sqDist, dot, Prod.fst_sub, Prod.snd_sub]
  ring

theorem sqDist_parallelogram (a b c d : R × R) :
    sqDist d (a + c - b) = sqDist a b + sqDist b c + sqDist c d + sqDist a d - sqDist a c - sqDist b d := by
  simp only [sqDist, dot, Prod.fst_sub, Prod.snd_sub, Prod.fst_add, Prod.snd_add]
  ring

theorem dot_sq_add_cross_sq : dot u v ^ 2 + cross u v ^ 2 = dot u u * dot v v := by
  unfold dot cross
  ring

theorem dot_mul_cross : dot u u * cross v w = dot u v * cross u w - dot u w * cross u v := by
  unfold dot cross
  ring

theorem dot_rot_right : dot v (rot u) = cross u v := by
  unfold dot cross rot
  ring

theorem dot_rot_rot : dot (rot u) (rot u) = dot u u := by
  unfold dot rot
  ring

theorem dot_neg_neg : dot (-u) (-v) = dot u v := by
  simp only [dot, Prod.fst_neg, Prod.snd_neg]
  ring

theorem cross_neg_left : cross (-u) v = -cross u v := by
  simp only [cross, Prod.fst_neg, Prod.snd_neg]
  ring

theorem rot_neg : rot (-u) = -rot u := rfl

variable {u v w} [LinearOrder R] [IsStrictOrderedRing R]

theorem dot_self_eq_zero : dot u u = 0 ↔ u = 0 := by
  rw [dot, mul_self_add_mul_self_eq_zero, Prod.ext_iff]
  rfl

theorem sqDist_nonneg : 0 ≤ sqDist u v := add_nonneg (mul_self_nonneg _) (mul_self_nonneg _)

theorem dot_self_pos (hu : u ≠ 0) : 0 < dot u u :=
  lt_of_le_of_ne (add_nonneg (mul_self_nonneg _) (mul_self_nonneg _)) (Ne.symm (mt dot_self_eq_zero.1 hu))

theorem sqDist_eq_zero : sqDist u v = 0 ↔ u = v := by
  rw [sqDist, dot_self_eq_zero, sub_eq_zero]

theorem eq_rot_of_cross (hlen : dot v v = dot u u) (hcross : cross u v = dot u u) : v = rot u := by
  refine sqDist_eq_zero.1 ?_
  rw [sqDist_eq, dot_rot_rot, dot_rot_right, hlen, hcross]
  ring

/-- orthogonal and of the same length -/
theorem eq_rot (hperp : dot u v = 0) (hlen : dot v v = dot u u) : v = rot u ∨ v = -rot u := by
  have hsq := dot_sq_add_cross_sq u v
  have hcross : (cross u v - dot u u) * (cross u v + dot u u) = 0 := by
    rw [hperp, hlen] at hsq
    linear_combination hsq
  rcases mul_eq_zero.1 hcross with h | h
  · exact Or.inl (eq_rot_of_cross hlen (sub_eq_zero.1 h))
  · have hneg : cross (-u) v = dot (-u) (-u) := by
      rw [cross_neg_left, dot_neg_neg]
      linear_combination -h
    rw [← rot_neg]
    exact Or.inr (eq_rot_of_cross (by rw [dot_neg_neg, hlen]) hneg)

end Vectors

/-! ## Squares -/

section Squares

variable {R : Type} [CommRing R]

/-- the corners, one after the other in one of the two directions -/
structure Square (a b c d : R × R) : Prop where
  nondegenerate : b - a ≠ 0
  turn : c - b = rot (b - a) ∨ c - b = -rot (b - a)
  closes : d = a + c - b

variable {a b c d : R × R} {s : R}

/-- four sides and two diagonals -/
theorem Square.sqDist_eq (h : Square a b c d) :
    (sqDist a b = sqDist b a ∧ sqDist b c = sqDist b a ∧ sqDist c d = sqDist b a ∧ sqDist a d = sqDist b a) ∧
      sqDist a c = 2 * sqDist b a ∧ sqDist b d = 2 * sqDist b a := by
  have hlen : dot (c - b) (c - b) = dot (b - a) (b - a) := by
    rcases h.turn with hturn | hturn
    · rw [hturn, dot_rot_rot]
    · rw [hturn, dot_neg_neg, dot_rot_rot]
  have hperp : dot (b - a) (c - b) = 0 := by
    rcases h.turn with hturn | hturn
    · rw [hturn]
      simp only [dot, rot]
      ring
    · rw [hturn]
      simp only [dot, rot, Prod.fst_neg, Prod.snd_neg]
      ring
  obtain rfl := h.closes
  simp only [dot, Prod.fst_sub, Prod.snd_sub] at hlen hperp
  simp only [sqDist, dot, Prod.fst_sub, Prod.snd_sub, Prod.fst_add, Prod.snd_add]
  refine ⟨⟨?_, ?_, ?_, ?_⟩, ?_, ?_⟩
  · ring
  · linear_combination hlen
  · ring
  · linear_combination hlen
  · linear_combination hlen + 2 * hperp
  · linear_combination hlen - 2 * hperp

variable [LinearOrder R] [IsStrictOrderedRing R]

theorem square_of_sqDist (hs : s ≠ 0) (hab : sqDist a b = s) (hbc : sqDist b c = s) (hcd : sqDist c d = s) (had : sqDist a d = s)
    (hac : sqDist a c = 2 * s) (hbd : sqDist b d = 2 * s) : Square a b c d := by
  have hu : dot (b - a) (b - a) = s := hab ▸ sqDist_comm b a
  have hv : dot (c - b) (c - b) = s := hbc ▸ sqDist_comm c b
  have hperp : dot (b - a) (c - b) = 0 := by
    have hcosine := two_mul_dot a c b
    rw [hab, sqDist_comm c b, hbc, hac, ← neg_sub b a, ← neg_neg (c - b), dot_neg_neg] at hcosine
    simp only [dot, Prod.fst_neg, Prod.snd_neg] at hcosine ⊢
    linarith
  have hclosed := sqDist_parallelogram a b c d
  rw [hab, hbc, hcd, had, hac, hbd] at hclosed
  refine ⟨fun hzero => hs ?_, eq_rot hperp (hv.trans hu.symm), sqDist_eq_zero.1 (by rw [hclosed]; ring)⟩
  rw [← hu, hzero]
  exact dot_self_eq_zero.2 rfl

/-- `b` and `c` would be on a line with `d`, orthogonal to the one from `d` to `a` -/
theorem not_shared (hs : s ≠ 0) (hab : sqDist a b = 2 * s) (hac : sqDist a c = 2 * s) (had : sqDist a d = s)
    (hbc : sqDist b c = s) (hbd : sqDist b d = s) (hcd : sqDist c d = s) : False := by
  have hpq : dot (a - d) (b - d) = 0 := by
    have hcosine := two_mul_dot a b d
    rw [had, hbd, hab] at hcosine
    linarith
  have hpr : dot (a - d) (c - d) = 0 := by
    have hcosine := two_mul_dot a c d
    rw [had, hcd, hac] at hcosine
    linarith
  have hqr : 2 * dot (b - d) (c - d) = s := by
    rw [two_mul_dot, hbd, hcd, hbc]
    ring
  have hcross : cross (b - d) (c - d) = 0 := by
    have htriple := dot_mul_cross (a - d) (b - d) (c - d)
    rw [hpq, hpr, zero_mul, zero_mul, sub_zero] at htriple
    have hp : dot (a - d) (a - d) ≠ 0 := by
      rw [← had] at hs
      exact hs
    exact (mul_eq_zero.1 htriple).resolve_left hp
  have hlagrange := dot_sq_add_cross_sq (b - d) (c - d)
  have hq : dot (b - d) (b - d) = s := hbd
  have hr : dot (c - d) (c - d) = s := hcd
  rw [hcross, hq, hr] at hlagrange
  have hthree : 3 * s ^ 2 = 0 := by
    linear_combination -4 * hlagrange + (2 * dot (b - d) (c - d) + s) * hqr
  have hzero := (mul_eq_zero.1 hthree).resolve_left three_ne_zero
  exact hs (pow_eq_zero_iff two_ne_zero |>.1 hzero)

end Squares

/-! ## The distances between any two -/

section Distances

variable {α R : Type} {f : α → α → R} {l l' : List α} {s t x : R}

def distances (f : α → α → R) : List α → Multiset R
  | [] => 0
  | a :: l => (l.map (f a) : List R) + distances f l

theorem distances_perm (hsymm : ∀ a b, f a b = f b a) (h : l.Perm l') : distances f l = distances f l' := by
  induction h with
  | nil => rfl
  | cons a hperm ih => rw [distances, distances, ih, Multiset.coe_eq_coe.2 (hperm.map (f a))]
  | swap a b l =>
    simp only [distances, List.map_cons, ← Multiset.cons_coe, hsymm b a]
    rw [← Multiset.singleton_add, ← Multiset.singleton_add]
    abel
  | trans _ _ ih ih' => exact ih.trans ih'

theorem exists_pair (h : x ∈ distances f l) : ∃ a b rest, l.Perm (a :: b :: rest) ∧ f a b = x := by
  induction l with
  | nil => exact absurd h (Multiset.notMem_zero x)
  | cons a l ih =>
    rw [distances, Multiset.mem_add, Multiset.mem_coe] at h
    rcases h with h | h
    · obtain ⟨b, hb, rfl⟩ := List.mem_map.1 h
      obtain ⟨l₁, l₂, rfl⟩ := List.append_of_mem hb
      exact ⟨a, b, l₁ ++ l₂, List.perm_middle.cons a, rfl⟩
    · obtain ⟨b, c, rest, hperm, hx⟩ := ih h
      refine ⟨b, c, a :: rest, (hperm.cons a).trans ?_, hx⟩
      exact (List.Perm.swap b a _).trans ((List.Perm.swap c a _).cons b)

/-- the distances between four points, two of them taken out -/
theorem others_eq {m : Multiset R} (h : {t} + ({t} + m) = t ::ₘ t ::ₘ Multiset.replicate 4 s) : ∀ y ∈ m, y = s := by
  intro y hy
  rw [Multiset.singleton_add, Multiset.singleton_add, Multiset.cons_inj_right, Multiset.cons_inj_right] at h
  exact Multiset.eq_of_mem_replicate (h ▸ hy)

theorem distances_four (f : α → α → R) (a b c d : α) :
    distances f [a, b, c, d] = {f a b} + {f a c} + {f a d} + {f b c} + {f b d} + {f c d} := by
  simp only [distances, List.map_cons, List.map_nil, ← Multiset.cons_coe, Multiset.coe_nil, ← Multiset.singleton_add]
  abel

section Four

variable {a b c d : α} (h : distances f [a, b, c, d] = t ::ₘ t ::ₘ Multiset.replicate 4 s)
include h

theorem shared_others (hab : f a b = t) (hac : f a c = t) : f a d = s ∧ f b c = s ∧ f b d = s ∧ f c d = s := by
  have hothers : ∀ y ∈ ({f a d} + {f b c} + {f b d} + {f c d} : Multiset R), y = s := by
    refine others_eq (t := t) ?_
    rw [← h, distances_four, hab, hac]
    abel
  simp only [Multiset.mem_add, Multiset.mem_singleton] at hothers
  exact ⟨hothers _ (by simp), hothers _ (by simp), hothers _ (by simp), hothers _ (by simp)⟩

theorem apart_others (hac : f a c = t) (hbd : f b d = t) : f a b = s ∧ f a d = s ∧ f b c = s ∧ f c d = s := by
  have hothers : ∀ y ∈ ({f a b} + {f a d} + {f b c} + {f c d} : Multiset R), y = s := by
    refine others_eq (t := t) ?_
    rw [← h, distances_four, hac, hbd]
    abel
  simp only [Multiset.mem_add, Multiset.mem_singleton] at hothers
  exact ⟨hothers _ (by simp), hothers _ (by simp), hothers _ (by simp), hothers _ (by simp)⟩

end Four

/-- two of the six are `t`: those of `a c` and `b d`, or those of `a b` and `a c` -/
theorem exists_naming (hsymm : ∀ a b, f a b = f b a) {ps : List α} (hlen : ps.length = 4)
    (h : distances f ps = t ::ₘ t ::ₘ Multiset.replicate 4 s) :
    ∃ a b c d, [a, b, c, d].Perm ps ∧ f a c = t ∧ f a d = s ∧ f b c = s ∧ f c d = s ∧
      (f a b = s ∧ f b d = t ∨ f a b = t ∧ f b d = s) := by
  have hshared : ∀ a b c d, [a, b, c, d].Perm ps → f a b = t → f a c = t → ∃ a b c d, [a, b, c, d].Perm ps ∧ f a c = t ∧
      f a d = s ∧ f b c = s ∧ f c d = s ∧ (f a b = s ∧ f b d = t ∨ f a b = t ∧ f b d = s) := by
    intro a b c d hperm hab hac
    obtain ⟨had, hbc, hbd, hcd⟩ := shared_others ((distances_perm hsymm hperm).trans h) hab hac
    exact ⟨a, b, c, d, hperm, hac, had, hbc, hcd, Or.inr ⟨hab, hbd⟩⟩
  have hmem : t ∈ distances f ps := by
    rw [h]
    exact Multiset.mem_cons_self t _
  obtain ⟨a, c, rest, hperm, hac⟩ := exists_pair hmem
  obtain ⟨b, d, rfl⟩ : ∃ b d, rest = [b, d] := by
    have hfour := hperm.length_eq
    rw [hlen, List.length_cons, List.length_cons] at hfour
    exact List.length_eq_two.1 (by omega)
  have hnames : ∀ w x y z, ({w} + {x} + {y} + {z} : Multiset α) = {a} + {c} + {b} + {d} → [w, x, y, z].Perm ps := by
    intro w x y z heq
    exact (Multiset.coe_eq_coe.1 heq).trans hperm.symm
  -- the second `t`
  have hsecond : t ∈ ({f a b} + {f a d} + {f c b} + {f c d} + {f b d} : Multiset R) := by
    have hfive : t ::ₘ ({f a b} + {f a d} + {f c b} + {f c d} + {f b d}) = t ::ₘ t ::ₘ Multiset.replicate 4 s := by
      rw [← h, distances_perm hsymm hperm, distances_four, hac, ← Multiset.singleton_add]
      abel
    rw [(Multiset.cons_inj_right t).1 hfive]
    exact Multiset.mem_cons_self t _
  simp only [Multiset.mem_add, Multiset.mem_singleton] at hsecond
  rcases hsecond with (((hab | had) | hcb) | hcd) | hbd
  · exact hshared a b c d (hnames a b c d (by abel)) hab.symm hac
  · exact hshared a d c b (hnames a d c b (by abel)) had.symm hac
  · exact hshared c b a d (hnames c b a d (by abel)) hcb.symm ((hsymm c a).trans hac)
  · exact hshared c d a b (hnames c d a b (by abel)) hcd.symm ((hsymm c a).trans hac)
  · have hperm' := hnames a b c d (by abel)
    obtain ⟨hab, had, hbc, hcd⟩ := apart_others ((distances_perm hsymm hperm').trans h) hac hbd.symm
    exact ⟨a, b, c, d, hperm', hac, had, hbc, hcd, Or.inl ⟨hab, hbd.symm⟩⟩

end Distances

section Corners

variable {α R : Type} [CommRing R] [LinearOrder R] [IsStrictOrderedRing R]

/-- **Squares by distances.** -/
theorem exists_square_iff (vec : α → R × R) {ps : List α} (hlen : ps.length = 4) :
    (∃ a b c d, [a, b, c, d].Perm ps ∧ Square (vec a) (vec b) (vec c) (vec d)) ↔
      ∃ s, 0 < s ∧ distances (fun a b => sqDist (vec a) (vec b)) ps = 2 * s ::ₘ 2 * s ::ₘ Multiset.replicate 4 s := by
  have hsymm : ∀ a b, sqDist (vec a) (vec b) = sqDist (vec b) (vec a) := fun a b => sqDist_comm _ _
  constructor
  · rintro ⟨a, b, c, d, hperm, hsquare⟩
    obtain ⟨⟨hab, hbc, hcd, had⟩, hac, hbd⟩ := hsquare.sqDist_eq
    refine ⟨sqDist (vec b) (vec a), dot_self_pos hsquare.nondegenerate, ?_⟩
    rw [← distances_perm hsymm hperm, distances_four, hab, hac, had, hbc, hbd, hcd]
    simp only [Multiset.replicate_succ, Multiset.replicate_zero, ← Multiset.singleton_add]
    abel
  · rintro ⟨s, hs, hdist⟩
    obtain ⟨a, b, c, d, hperm, hac, had, hbc, hcd, hcases⟩ := exists_naming hsymm hlen hdist
    rcases hcases with ⟨hab, hbd⟩ | ⟨hab, hbd⟩
    · exact ⟨a, b, c, d, hperm, square_of_sqDist hs.ne' hab hbc hcd had hac hbd⟩
    · exact absurd (not_shared hs.ne' hab hac had hbc hbd hcd) id

end Corners

end InterviewPrep.Plane
