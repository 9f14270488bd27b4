/-
Four points and a square: pureStorage/isSquare.cpp.

The coordinates and their differences are `int`s, the distances `long long`s; an overflow is `none`.

- `distSq_eq`: nothing overflows up to 2 ^ 29;
- `check_iff`: what is compared in the sorted distances;
- `isSquare_iff`: the result is true exactly if the points are the corners of a square, in any order.
-/
import Mathlib.Data.List.Sort
import InterviewPrep.Core.Numeral
import InterviewPrep.Core.Plane

namespace InterviewPrep.IsSquare

open Numeral (signed signed_of_small long long_of_small)
open Plane (Square sqDist distances)

/-! ## Model -/

structure Point where
  x : ℤ
  y : ℤ
deriving DecidableEq

def distSq (p1 p2 : Point) : Option ℤ := do
  let dx ← signed (p1.x - p2.x)
  let xx ← long (dx * dx)
  let dy ← signed (p1.y - p2.y)
  let yy ← long (dy * dy)
  long (xx + yy)

/-- the value that is returned, from the sorted `d` -/
def check : List ℤ → Option Bool
  | [d0, d1, d2, d3, d4, d5] =>
    if d0 > 0 ∧ d0 = d1 ∧ d1 = d2 ∧ d2 = d3 ∧ d4 = d5 then do
      let twice ← long (2 * d0)
      some (decide (d4 = twice))
    else some false
  | _ => none

def isSquare (p1 p2 p3 p4 : Point) : Option Bool := do
  let d12 ← distSq p1 p2
  let d13 ← distSq p1 p3
  let d14 ← distSq p1 p4
  let d23 ← distSq p2 p3
  let d24 ← distSq p2 p4
  let d34 ← distSq p3 p4
  check ([d12, d13, d14, d23, d24, d34].insertionSort (· ≤ ·))

/-! ## The distances -/

def Point.vec (p : Point) : ℤ × ℤ := (p.x, p.y)

def Near (p : Point) : Prop := |p.x| ≤ 2 ^ 29 ∧ |p.y| ≤ 2 ^ 29

instance : DecidablePred Near := fun _ => inferInstanceAs (Decidable (_ ∧ _))

theorem mul_self_le {k : ℤ} (hlow : -2 ^ 30 ≤ k) (hhigh : k ≤ 2 ^ 30) : 0 ≤ k * k ∧ k * k ≤ 2 ^ 60 :=
  ⟨mul_self_nonneg k, by nlinarith⟩

theorem distSq_eq {p q : Point} (hp : Near p) (hq : Near q) :
    distSq p q = some (sqDist p.vec q.vec) ∧ sqDist p.vec q.vec ≤ 2 ^ 61 := by
  obtain ⟨hpx, hpy⟩ := hp
  obtain ⟨hqx, hqy⟩ := hq
  rw [abs_le] at hpx hpy hqx hqy
  obtain ⟨hxx, hxx'⟩ := mul_self_le (k := p.x - q.x) (by omega) (by omega)
  obtain ⟨hyy, hyy'⟩ := mul_self_le (k := p.y - q.y) (by omega) (by omega)
  have hdist : sqDist p.vec q.vec = (p.x - q.x) * (p.x - q.x) + (p.y - q.y) * (p.y - q.y) := rfl
  generalize hX : (p.x - q.x) * (p.x - q.x) = X at hxx hxx' hdist
  generalize hY : (p.y - q.y) * (p.y - q.y) = Y at hyy hyy' hdist
  rw [hdist]
  refine ⟨?_, by omega⟩
  rw [distSq, signed_of_small (by omega) (by omega), Option.bind_eq_bind, Option.bind_some, hX, long_of_small (by omega) (by omega),
    Option.bind_some, signed_of_small (by omega) (by omega), Option.bind_some, hY, long_of_small (by omega) (by omega),
    Option.bind_some, long_of_small (by omega) (by omega)]

/-! ## The comparison -/

theorem check_iff {ds : List ℤ} (hlen : ds.length = 6) (hbound : ∀ d ∈ ds, 0 ≤ d ∧ d ≤ 2 ^ 61) :
    ∃ r, check ds = some r ∧ (r = true ↔ ∃ s, 0 < s ∧ ds = [s, s, s, s, 2 * s, 2 * s]) := by
  obtain ⟨d0, ds, rfl⟩ := List.exists_cons_of_length_eq_add_one hlen
  obtain ⟨d1, ds, rfl⟩ := List.exists_cons_of_length_eq_add_one (Nat.succ.inj hlen)
  obtain ⟨d2, ds, rfl⟩ := List.exists_cons_of_length_eq_add_one (Nat.succ.inj (Nat.succ.inj hlen))
  obtain ⟨d3, d4, d5, rfl⟩ := List.length_eq_three.1 (Nat.succ.inj (Nat.succ.inj (Nat.succ.inj hlen)))
  have hd0 := hbound d0 List.mem_cons_self
  rw [check]
  by_cases hsides : d0 > 0 ∧ d0 = d1 ∧ d1 = d2 ∧ d2 = d3 ∧ d4 = d5
  · obtain ⟨hpos, rfl, rfl, rfl, rfl⟩ := hsides
    rw [if_pos ⟨hpos, rfl, rfl, rfl, rfl⟩, long_of_small (by omega) (by omega), Option.bind_eq_bind, Option.bind_some]
    refine ⟨_, rfl, ?_⟩
    rw [decide_eq_true_iff]
    constructor
    · rintro rfl
      exact ⟨d0, hpos, rfl⟩
    · rintro ⟨s, -, heq⟩
      simp only [List.cons.injEq] at heq
      omega
  · rw [if_neg hsides]
    refine ⟨false, rfl, iff_of_false Bool.false_ne_true ?_⟩
    rintro ⟨s, hs, heq⟩
    simp only [List.cons.injEq] at heq
    omega

/-- the result depends on the distances only -/
theorem check_distances {ds : List ℤ} (hlen : ds.length = 6) (hbound : ∀ d ∈ ds, 0 ≤ d ∧ d ≤ 2 ^ 61) :
    ∃ r, check (ds.insertionSort (· ≤ ·)) = some r ∧
      (r = true ↔ ∃ s, 0 < s ∧ (ds : Multiset ℤ) = 2 * s ::ₘ 2 * s ::ₘ Multiset.replicate 4 s) := by
  have hperm := List.perm_insertionSort (· ≤ ·) ds
  obtain ⟨r, hcheck, hr⟩ := check_iff (hperm.length_eq.trans hlen) fun d hd => hbound d (hperm.mem_iff.1 hd)
  refine ⟨r, hcheck, hr.trans (exists_congr fun s => and_congr_right fun hs => ?_)⟩
  have hmultiset : (2 * s ::ₘ 2 * s ::ₘ Multiset.replicate 4 s : Multiset ℤ) = ([s, s, s, s, 2 * s, 2 * s] : List ℤ) := by
    simp only [Multiset.replicate_succ, Multiset.replicate_zero, ← Multiset.cons_coe, Multiset.coe_nil,
      ← Multiset.singleton_add]
    abel
  rw [hmultiset, Multiset.coe_eq_coe]
  constructor
  · intro heq
    exact heq ▸ hperm.symm
  · intro hds
    refine (hperm.trans hds).eq_of_pairwise' (List.pairwise_insertionSort (· ≤ ·) ds) ?_
    simp only [List.pairwise_cons, List.mem_cons, List.not_mem_nil]
    grind

theorem isSquare_distances {p1 p2 p3 p4 : Point} (h : ∀ p ∈ [p1, p2, p3, p4], Near p) :
    ∃ r, isSquare p1 p2 p3 p4 = some r ∧ (r = true ↔ ∃ s, 0 < s ∧
      distances (fun p q : Point => sqDist p.vec q.vec) [p1, p2, p3, p4] = 2 * s ::ₘ 2 * s ::ₘ Multiset.replicate 4 s) := by
  simp only [List.forall_mem_cons] at h
  obtain ⟨h1, h2, h3, h4, -⟩ := h
  have hbound : ∀ d ∈ [sqDist p1.vec p2.vec, sqDist p1.vec p3.vec, sqDist p1.vec p4.vec, sqDist p2.vec p3.vec,
      sqDist p2.vec p4.vec, sqDist p3.vec p4.vec], 0 ≤ d ∧ d ≤ 2 ^ 61 := by
    simp only [List.forall_mem_cons]
    exact ⟨⟨Plane.sqDist_nonneg, (distSq_eq h1 h2).2⟩, ⟨Plane.sqDist_nonneg, (distSq_eq h1 h3).2⟩,
      ⟨Plane.sqDist_nonneg, (distSq_eq h1 h4).2⟩, ⟨Plane.sqDist_nonneg, (distSq_eq h2 h3).2⟩,
      ⟨Plane.sqDist_nonneg, (distSq_eq h2 h4).2⟩, ⟨Plane.sqDist_nonneg, (distSq_eq h3 h4).2⟩, List.forall_mem_nil _⟩
  obtain ⟨r, hcheck, hr⟩ := check_distances rfl hbound
  refine ⟨r, ?_, hr⟩
  rw [isSquare, (distSq_eq h1 h2).1, (distSq_eq h1 h3).1, (distSq_eq h1 h4).1, (distSq_eq h2 h3).1, (distSq_eq h2 h4).1,
    (distSq_eq h3 h4).1]
  exact hcheck

/-- **Squares.** For coordinates up to 2 ^ 29 nothing overflows, and the result is true exactly if the points are the corners of a
square in some order; it does not depend on the order they are given in. -/
theorem isSquare_iff (p1 p2 p3 p4 : Point) (h : ∀ p ∈ [p1, p2, p3, p4], |p.x| ≤ 2 ^ 29 ∧ |p.y| ≤ 2 ^ 29) :
    (∃ r, isSquare p1 p2 p3 p4 = some r ∧
      (r = true ↔ ∃ a b c d : Point, [a, b, c, d].Perm [p1, p2, p3, p4] ∧ Square a.vec b.vec c.vec d.vec)) ∧
    ∀ q1 q2 q3 q4, [q1, q2, q3, q4].Perm [p1, p2, p3, p4] → isSquare q1 q2 q3 q4 = isSquare p1 p2 p3 p4 := by
  obtain ⟨r, hres, hr⟩ := isSquare_distances h
  refine ⟨⟨r, hres, hr.trans (Plane.exists_square_iff Point.vec rfl).symm⟩, fun q1 q2 q3 q4 hperm => ?_⟩
  obtain ⟨r', hres', hr'⟩ := isSquare_distances fun q hq => h q (hperm.mem_iff.1 hq)
  rw [Plane.distances_perm (fun _ _ => Plane.sqDist_comm _ _) hperm, ← hr] at hr'
  rw [hres, hres', Bool.eq_iff_iff.2 hr']

theorem isSquare_tilted :
    (∃ r, isSquare ⟨0, 0⟩ ⟨3, 3⟩ ⟨2, 1⟩ ⟨1, 2⟩ = some r ∧
      (r = true ↔ ∃ a b c d : Point, [a, b, c, d].Perm [⟨0, 0⟩, ⟨3, 3⟩, ⟨2, 1⟩, ⟨1, 2⟩] ∧ Square a.vec b.vec c.vec d.vec)) ∧
    ∀ q1 q2 q3 q4, [q1, q2, q3, q4].Perm [⟨0, 0⟩, ⟨3, 3⟩, ⟨2, 1⟩, ⟨1, 2⟩] →
      isSquare q1 q2 q3 q4 = isSquare ⟨0, 0⟩ ⟨3, 3⟩ ⟨2, 1⟩ ⟨1, 2⟩ :=
  isSquare_iff _ _ _ _ (by decide)

end InterviewPrep.IsSquare
