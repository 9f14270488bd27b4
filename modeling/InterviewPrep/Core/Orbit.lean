/-
Orbits that run into a cycle.

`Rho f x tail period`: the iterates of `f` from `x` are all different up to `tail + period`, where the one at `tail` comes
again.
- `exists_rho`: every finite orbit has this shape;
- `Rho.eq_iff`: two iterates are equal only on the cycle, and there exactly when a multiple of the period lies between them;
- `Rho.returns_iff`: the iterates that come again are those on the cycle;
- `Rho.meet_iff`: a cursor and another that is twice as fast meet after `k` steps exactly when the period divides `k` and the
  slow one is on the cycle, and `Rho.exists_meet` that they do before the slow one has left it.
-/
import Mathlib.Dynamics.PeriodicPts.Defs
import Mathlib.Tactic

namespace InterviewPrep.Orbit

variable {σ : Type} {f : σ → σ} {x : σ} {tail period i j k : ℕ}

structure Rho (f : σ → σ) (x : σ) (tail period : ℕ) : Prop where
  pos : 0 < period
  back : f^[tail + period] x = f^[tail] x
  inj : ∀ i < tail + period, ∀ j < tail + period, f^[i] x = f^[j] x → i = j

/-- the first iterate that comes again ends the tail -/
theorem exists_rho (hfin : (Set.range fun k => f^[k] x).Finite) : ∃ tail period, Rho f x tail period := by
  classical
  have hagain : ∃ n, ∃ t < n, f^[n] x = f^[t] x := by
    obtain ⟨m, -, n, -, hne, heq⟩ := Set.infinite_univ.exists_ne_map_eq_of_mapsTo
      (f := fun k => f^[k] x) (fun k _ => Set.mem_range_self k) hfin
    rcases Nat.lt_or_gt_of_ne hne with hlt | hgt
    · exact ⟨n, m, hlt, heq.symm⟩
    · exact ⟨m, n, hgt, heq⟩
  obtain ⟨t, htn, ht⟩ := Nat.find_spec hagain
  have hend : t + (Nat.find hagain - t) = Nat.find hagain := by omega
  refine ⟨t, Nat.find hagain - t, by omega, by rw [hend, ht], fun i hi j hj heq => ?_⟩
  rw [hend] at hi hj
  by_contra hne
  rcases Nat.lt_or_gt_of_ne hne with hlt | hgt
  · exact Nat.find_min hagain hj ⟨i, hlt, heq.symm⟩
  · exact Nat.find_min hagain hi ⟨j, hgt, heq⟩

namespace Rho

variable (h : Rho f x tail period)
include h

theorem periodic : Function.IsPeriodicPt f period (f^[tail] x) := by
  show f^[period] (f^[tail] x) = f^[tail] x
  rw [← Function.iterate_add_apply, add_comm, h.back]

/-- on the cycle, the iterates repeat -/
theorem iterate_mod (k : ℕ) : f^[tail + k % period] x = f^[tail + k] x := by
  rw [add_comm, Function.iterate_add_apply, h.periodic.iterate_mod_apply, ← Function.iterate_add_apply, add_comm]

theorem eq_iff : f^[i] x = f^[j] x ↔ i = j ∨ tail ≤ i ∧ tail ≤ j ∧ i ≡ j [MOD period] := by
  -- the first of the iterates that are equal to iterate `i`
  have hfirst : ∀ i, ∃ i' < tail + period, f^[i'] x = f^[i] x ∧ (i = i' ∨ tail ≤ i ∧ tail ≤ i' ∧ i ≡ i' [MOD period]) := by
    intro i
    rcases Nat.lt_or_ge i tail with hi | hi
    · exact ⟨i, by omega, rfl, Or.inl rfl⟩
    · obtain ⟨k, rfl⟩ := Nat.exists_eq_add_of_le hi
      exact ⟨tail + k % period, Nat.add_lt_add_left (Nat.mod_lt k h.pos) tail, h.iterate_mod k,
        Or.inr ⟨by omega, by omega, (Nat.mod_modEq k period).symm.add_left tail⟩⟩
  obtain ⟨i', hi', hieq, hi⟩ := hfirst i
  obtain ⟨j', hj', hjeq, hj⟩ := hfirst j
  constructor
  · intro heq
    obtain rfl := h.inj i' hi' j' hj' (hieq.trans (heq.trans hjeq.symm))
    rcases hi with rfl | ⟨hti, hti', hmodi⟩ <;> rcases hj with rfl | ⟨htj, htj', hmodj⟩
    · exact Or.inl rfl
    · exact Or.inr ⟨htj', htj, hmodj.symm⟩
    · exact Or.inr ⟨hti, hti', hmodi⟩
    · exact Or.inr ⟨hti, htj, hmodi.trans hmodj.symm⟩
  · rintro (rfl | ⟨hti, htj, hmod⟩)
    · rfl
    · obtain ⟨a, rfl⟩ := Nat.exists_eq_add_of_le hti
      obtain ⟨b, rfl⟩ := Nat.exists_eq_add_of_le htj
      rw [← h.iterate_mod a, ← h.iterate_mod b, Nat.ModEq.add_left_cancel' tail hmod]

theorem returns_iff : (∃ m > 0, f^[m] (f^[i] x) = f^[i] x) ↔ tail ≤ i := by
  constructor
  · rintro ⟨m, hm, heq⟩
    rw [← Function.iterate_add_apply, h.eq_iff] at heq
    omega
  · intro hi
    refine ⟨period, h.pos, ?_⟩
    rw [← Function.iterate_add_apply, h.eq_iff]
    exact Or.inr ⟨by omega, hi, Nat.add_modEq_left⟩

theorem meet_iff (hk : 0 < k) : f^[k] x = f^[2 * k] x ↔ tail ≤ k ∧ period ∣ k := by
  have hdvd : k ≡ 2 * k [MOD period] ↔ period ∣ k := by
    rw [Nat.modEq_iff_dvd' (by omega), show 2 * k - k = k by omega]
  rw [h.eq_iff, hdvd]
  constructor
  · rintro (heq | ⟨hlow, -, hmod⟩)
    · omega
    · exact ⟨hlow, hmod⟩
  · rintro ⟨hlow, hmod⟩
    exact Or.inr ⟨hlow, by omega, hmod⟩

theorem exists_meet : ∃ k > 0, k ≤ tail + period ∧ tail ≤ k ∧ period ∣ k := by
  have hlow := Nat.lt_mul_div_succ tail h.pos
  have hhigh := Nat.mul_div_le tail period
  refine ⟨period * (tail / period + 1), by omega, ?_, hlow.le, dvd_mul_right _ _⟩
  rw [mul_add, mul_one]
  omega

end Rho

end InterviewPrep.Orbit
