/-
Runs of partial machines.

A machine is a step function on an explicit state; `none` is a step that is not possible, or that goes wrong.
- `exec`: actions without answers. `exec_inv` is the invariant rule, `exec_inv_of_meets` the one for runs whose steps all
  meet a condition on the state they are taken in (`Meets`); `exec_trans` puts two runs together. `exec_length_le` bounds the
  length of a run by a potential, and `exec_project` maps the runs of one machine to runs of another.
- `run`: inputs that are answered, with the list of answers. `run_inv` is the invariant rule, over what was put in and
  answered so far, `run_concat` adds a step at the end and `Every` is a condition on each input and those before it.
- `runTotal`: the same for a machine that cannot fail; `runTotal_inv` is its invariant rule, and `runTotal_filter` leaves
  out the inputs that an observer does not notice. `run_simulates` is the simulation rule: if every
  step is possible and answered like a total reference, every run is. `agrees_of_step` says so with the states related at
  the end (`Agrees`); `agrees_iff` is the one for steps that are answered like the reference under a condition: a run is
  exactly if all its steps meet it.
-/
import Mathlib.Tactic

namespace InterviewPrep.Machine

variable {σ τ ι ο : Type}

/-! ## Actions -/

def exec (step : σ → ι → Option σ) : σ → List ι → Option σ
  | s, [] => some s
  | s, a :: as => (step s a).bind fun s => exec step s as

section Exec

variable {step : σ → ι → Option σ} {s s' : σ}

theorem exec_cons_eq_some {a : ι} {as : List ι} :
    exec step s (a :: as) = some s' ↔ ∃ t, step s a = some t ∧ exec step t as = some s' := by
  rw [exec, Option.bind_eq_some_iff]

theorem exec_append (as bs : List ι) : exec step s (as ++ bs) = (exec step s as).bind fun t => exec step t bs := by
  induction as generalizing s with
  | nil => rfl
  | cons a as ih =>
    rw [List.cons_append, exec, exec, Option.bind_assoc]
    congr 1
    funext t
    exact ih

/-- two runs, one after the other -/
theorem exec_trans {t : σ} {as bs : List ι} (h : exec step s as = some t) (h' : exec step t bs = some s') :
    exec step s (as ++ bs) = some s' := by
  rw [exec_append, h, Option.bind_some, h']

/-- what every step preserves, every run preserves -/
theorem exec_inv {P : σ → Prop} (hstep : ∀ s a t, step s a = some t → P s → P t) {as : List ι}
    (h : exec step s as = some s') (hs : P s) : P s' := by
  induction as generalizing s with
  | nil =>
    obtain rfl : s = s' := Option.some.inj h
    exact hs
  | cons a as ih =>
    obtain ⟨t, hst, hts⟩ := exec_cons_eq_some.1 h
    exact ih hts (hstep s a t hst hs)

/-- every action meets `C` in the state it is taken in -/
def Meets (step : σ → ι → Option σ) (C : σ → ι → Prop) : σ → List ι → Prop
  | _, [] => True
  | s, a :: as => C s a ∧ ∀ t, step s a = some t → Meets step C t as

theorem Meets.cons {C : σ → ι → Prop} {t : σ} {a : ι} {as : List ι} (hstep : step s a = some t) (ha : C s a)
    (has : Meets step C t as) : Meets step C s (a :: as) :=
  ⟨ha, fun _ ht => Option.some.inj (hstep.symm.trans ht) ▸ has⟩

instance decidableMeets {C : σ → ι → Prop} [∀ s a, Decidable (C s a)] : ∀ s as, Decidable (Meets step C s as)
  | _, [] => isTrue trivial
  | s, a :: as =>
    match h : step s a with
    | none => decidable_of_iff (C s a) ⟨fun hc => ⟨hc, fun t ht => by simp [h] at ht⟩, And.left⟩
    | some t =>
      have := decidableMeets (C := C) t as
      decidable_of_iff (C s a ∧ Meets step C t as)
        ⟨fun ⟨ha, has⟩ => Meets.cons h ha has, fun ⟨ha, has⟩ => ⟨ha, has t h⟩⟩

/-- what every step that meets `C` preserves, every run of such steps preserves -/
theorem exec_inv_of_meets {P : σ → Prop} {C : σ → ι → Prop} (hstep : ∀ s a t, step s a = some t → C s a → P s → P t)
    {as : List ι} (h : exec step s as = some s') (hmeets : Meets step C s as) (hs : P s) : P s' := by
  induction as generalizing s with
  | nil =>
    obtain rfl : s = s' := Option.some.inj h
    exact hs
  | cons a as ih =>
    obtain ⟨t, hst, hts⟩ := exec_cons_eq_some.1 h
    exact ih hts (hmeets.2 t hst) (hstep s a t hst hmeets.1 hs)

/-- every step takes one from the potential, except for what its action adds -/
theorem exec_length_le {P : σ → Prop} {μ : σ → ℕ} {extra : ι → ℕ}
    (hstep : ∀ s a t, step s a = some t → P s → P t ∧ μ t + 1 ≤ μ s + extra a) {as : List ι}
    (h : exec step s as = some s') (hs : P s) : as.length + μ s' ≤ μ s + (as.map extra).sum := by
  induction as generalizing s with
  | nil =>
    obtain rfl : s = s' := Option.some.inj h
    simp
  | cons a as ih =>
    obtain ⟨t, hst, hts⟩ := exec_cons_eq_some.1 h
    obtain ⟨ht, hle⟩ := hstep s a t hst hs
    have hrest := ih hts ht
    rw [List.length_cons, List.map_cons, List.sum_cons]
    omega

/-- if every step is a run of another machine, as far as `f` shows, every run is -/
theorem exec_project {κ : Type} {other : τ → κ → Option τ} {f : σ → τ} {P : σ → Prop}
    (hstep : ∀ s a t, step s a = some t → P s → P t ∧ ∃ bs, exec other (f s) bs = some (f t)) {as : List ι}
    (h : exec step s as = some s') (hs : P s) : ∃ bs, exec other (f s) bs = some (f s') := by
  induction as generalizing s with
  | nil =>
    obtain rfl : s = s' := Option.some.inj h
    exact ⟨[], rfl⟩
  | cons a as ih =>
    obtain ⟨t, hst, hts⟩ := exec_cons_eq_some.1 h
    obtain ⟨ht, bs, hbs⟩ := hstep s a t hst hs
    obtain ⟨cs, hcs⟩ := ih hts ht
    exact ⟨bs ++ cs, exec_trans hbs hcs⟩

end Exec

/-! ## Inputs and answers -/

def run (step : σ → ι → Option (σ × ο)) : σ → List ι → Option (σ × List ο)
  | s, [] => some (s, [])
  | s, i :: is => (step s i).bind fun (s, o) => (run step s is).map fun (s, os) => (s, o :: os)

theorem run_concat {step : σ → ι → Option (σ × ο)} {s t t' : σ} {is : List ι} {os : List ο} {i : ι} {o : ο}
    (h : run step s is = some (t, os)) (hone : step t i = some (t', o)) :
    run step s (is ++ [i]) = some (t', os ++ [o]) := by
  induction is generalizing s os with
  | nil =>
    obtain ⟨rfl, rfl⟩ := Prod.mk.inj (Option.some.inj h)
    simp only [List.nil_append, run, hone, Option.bind_some, Option.map_some]
  | cons j is ih =>
    obtain ⟨⟨s₁, o₁⟩, hfirst, hmap⟩ := Option.bind_eq_some_iff.1 h
    obtain ⟨⟨s₂, os₂⟩, hrest, heq⟩ := Option.map_eq_some_iff.1 hmap
    obtain ⟨rfl, rfl⟩ := Prod.mk.inj heq
    simp only [List.cons_append, run, hfirst, Option.bind_some, ih hrest, Option.map_some]

/-- every input meets `P`, given the inputs before it -/
def Every (P : List ι → ι → Prop) : List ι → List ι → Prop
  | _, [] => True
  | before, i :: is => P before i ∧ Every P (before ++ [i]) is

instance decidableEvery {P : List ι → ι → Prop} [∀ before i, Decidable (P before i)] :
    ∀ before is, Decidable (Every P before is)
  | _, [] => isTrue trivial
  | before, i :: is => @instDecidableAnd _ _ inferInstance (decidableEvery (before ++ [i]) is)

/-- what every step preserves, with the inputs and answers so far, every run preserves -/
theorem run_inv {step : σ → ι → Option (σ × ο)} {P : σ → List ι → List ο → Prop}
    (hstep : ∀ s is os i s' o, P s is os → step s i = some (s', o) → P s' (is ++ [i]) (os ++ [o])) {s s' : σ}
    {is : List ι} {os : List ο} (h : run step s is = some (s', os)) (hs : P s [] []) : P s' is os := by
  have hgen : ∀ (is : List ι) (s : σ) (is₀ : List ι) (os₀ os : List ο), P s is₀ os₀ → run step s is = some (s', os) →
      P s' (is₀ ++ is) (os₀ ++ os) := by
    intro is
    induction is with
    | nil =>
      intro s is₀ os₀ os hs h
      obtain ⟨rfl, rfl⟩ := Prod.mk.inj (Option.some.inj h)
      rwa [List.append_nil, List.append_nil]
    | cons i is ih =>
      intro s is₀ os₀ os hs h
      obtain ⟨⟨s₁, o⟩, hone, hmap⟩ := Option.bind_eq_some_iff.1 h
      obtain ⟨⟨s₂, os'⟩, hrest, heq⟩ := Option.map_eq_some_iff.1 hmap
      obtain ⟨rfl, rfl⟩ := Prod.mk.inj heq
      have hnext := ih s₁ (is₀ ++ [i]) (os₀ ++ [o]) os' (hstep s is₀ os₀ i s₁ o hs hone) hrest
      rwa [List.append_assoc, List.append_assoc] at hnext
  exact hgen is s [] [] os hs h

/-- a machine that cannot fail -/
def runTotal (step : τ → ι → τ × ο) : τ → List ι → τ × List ο
  | t, [] => (t, [])
  | t, i :: is =>
    let (t, o) := step t i
    let (t, os) := runTotal step t is
    (t, o :: os)

theorem runTotal_concat (step : τ → ι → τ × ο) (t : τ) (is : List ι) (i : ι) :
    runTotal step t (is ++ [i]) =
      ((step (runTotal step t is).1 i).1, (runTotal step t is).2 ++ [(step (runTotal step t is).1 i).2]) := by
  induction is generalizing t with
  | nil => rfl
  | cons j is ih => simp only [List.cons_append, runTotal, ih]

/-- what every step preserves, with the inputs and answers so far, every run of a machine that cannot fail preserves -/
theorem runTotal_inv {step : τ → ι → τ × ο} {P : τ → List ι → List ο → Prop} {t : τ}
    (hstep : ∀ t is os i, P t is os → P (step t i).1 (is ++ [i]) (os ++ [(step t i).2])) (ht : P t [] [])
    (is : List ι) : P (runTotal step t is).1 is (runTotal step t is).2 := by
  induction is using List.reverseRecOn with
  | nil => exact ht
  | append_singleton is i ih =>
    rw [runTotal_concat]
    exact hstep _ _ _ _ ih

/-- an observer sees the same answers when the inputs that do not concern it are left out -/
theorem runTotal_filter {step : τ → ι → τ × ο} {R : τ → τ → Prop} {own : ι → Bool} {mine : ο → Bool}
    (hown : ∀ i t t', own i = true → R t t' → R (step t i).1 (step t' i).1 ∧ (step t i).2 = (step t' i).2)
    (hother : ∀ i t t', own i = false → R t t' → R (step t i).1 t' ∧ mine (step t i).2 = false)
    {t t' : τ} (h : R t t') (is : List ι) :
    (runTotal step t is).2.filter mine = (runTotal step t' (is.filter own)).2.filter mine := by
  induction is generalizing t t' with
  | nil => rfl
  | cons i is ih =>
    cases hi : own i with
    | true =>
      obtain ⟨hnext, hout⟩ := hown i t t' hi h
      rw [List.filter_cons_of_pos hi]
      simp only [runTotal, List.filter_cons, hout, ih hnext]
    | false =>
      obtain ⟨hnext, hout⟩ := hother i t t' hi h
      rw [List.filter_cons_of_neg (Bool.eq_false_iff.1 hi)]
      simp only [runTotal]
      rw [List.filter_cons_of_neg (Bool.eq_false_iff.1 hout), ih hnext]

/-- if a reference answers every step alike, as far as `f` and `g` show, it answers every run alike -/
theorem run_simulates {ρ ω : Type} {step : σ → ι → Option (σ × ο)} {ref : τ → ι → τ × ρ} {R : σ → τ → Prop}
    {f : ο → ω} {g : ρ → ω} {is : List ι}
    (hstep : ∀ i ∈ is, ∀ s t, R s t → ∃ s' o, step s i = some (s', o) ∧ f o = g (ref t i).2 ∧ R s' (ref t i).1)
    {s : σ} {t : τ} (h : R s t) :
    ∃ s' os, run step s is = some (s', os) ∧ os.map f = (runTotal ref t is).2.map g ∧ R s' (runTotal ref t is).1 := by
  induction is generalizing s t with
  | nil => exact ⟨s, [], rfl, rfl, h⟩
  | cons i is ih =>
    obtain ⟨s₁, o, hone, ho, h₁⟩ := hstep i List.mem_cons_self s t h
    obtain ⟨s₂, os, hrest, hos, h₂⟩ := ih (fun j hj => hstep j (List.mem_cons_of_mem i hj)) h₁
    refine ⟨s₂, o :: os, ?_, ?_, h₂⟩
    · simp only [run, hone, Option.bind_some, hrest, Option.map_some]
    · rw [runTotal, List.map_cons, List.map_cons, ho, hos]

section Agrees

variable {step : σ → ι → Option (σ × ο)} {ref : τ → ι → τ × ο} {Q : σ → τ → Prop}

/-- every step is possible and answered like the reference, and the states are related at the end -/
def Agrees (step : σ → ι → Option (σ × ο)) (ref : τ → ι → τ × ο) (Q : σ → τ → Prop) (s : σ) (t : τ) (is : List ι) : Prop :=
  ∃ s', run step s is = some (s', (runTotal ref t is).2) ∧ Q s' (runTotal ref t is).1

/-- the states of a machine with answers -/
def next (step : σ → ι → Option (σ × ο)) (s : σ) (i : ι) : Option σ := (step s i).map Prod.fst

theorem agrees_cons {s : σ} {t : τ} {i : ι} {is : List ι} :
    Agrees step ref Q s t (i :: is) ↔
      ∃ s', step s i = some (s', (ref t i).2) ∧ Agrees step ref Q s' (ref t i).1 is := by
  constructor
  · intro h
    obtain ⟨s', hrun, hQ⟩ := h
    obtain ⟨⟨s₁, o⟩, hone, hmap⟩ := Option.bind_eq_some_iff.1 hrun
    obtain ⟨⟨s₂, os⟩, hrest, heq⟩ := Option.map_eq_some_iff.1 hmap
    obtain ⟨rfl, hos⟩ := Prod.mk.inj heq
    obtain ⟨rfl, rfl⟩ := List.cons.inj hos
    exact ⟨s₁, hone, s₂, hrest, hQ⟩
  · intro h
    obtain ⟨s₁, hone, s₂, hrest, hQ⟩ := h
    refine ⟨s₂, ?_, hQ⟩
    rw [run, hone, Option.bind_some]
    dsimp only
    rw [hrest, Option.map_some]
    rfl

/-- if every step is possible and answered like the reference, every run is -/
theorem agrees_of_step (hstep : ∀ s t i, Q s t → ∃ s', step s i = some (s', (ref t i).2) ∧ Q s' (ref t i).1) {s : σ} {t : τ}
    (h : Q s t) (is : List ι) : Agrees step ref Q s t is := by
  induction is generalizing s t with
  | nil => exact ⟨s, rfl, h⟩
  | cons i is ih =>
    obtain ⟨s', hone, hnext⟩ := hstep s t i h
    exact agrees_cons.2 ⟨s', hone, ih hnext⟩

theorem Agrees.mono {P : σ → τ → Prop} (hPQ : ∀ s t, P s t → Q s t) {s : σ} {t : τ} {is : List ι}
    (h : Agrees step ref P s t is) : Agrees step ref Q s t is := by
  obtain ⟨s', hrun, hP⟩ := h
  exact ⟨s', hrun, hPQ _ _ hP⟩

/-- if a step is answered like the reference exactly where `C` holds, a run is exactly if all its steps meet `C` -/
theorem agrees_iff {C : σ → ι → Prop} {R : σ → τ → Prop}
    (hgood : ∀ s t i, R s t → C s i → ∃ s', step s i = some (s', (ref t i).2) ∧ R s' (ref t i).1)
    (hbad : ∀ s t i, R s t → ¬C s i → ∀ s', step s i ≠ some (s', (ref t i).2)) (hRQ : ∀ s t, R s t → Q s t)
    {s : σ} {t : τ} (h : R s t) (is : List ι) : Agrees step ref Q s t is ↔ Meets (next step) C s is := by
  induction is generalizing s t with
  | nil => exact ⟨fun _ => trivial, fun _ => ⟨s, rfl, hRQ s t h⟩⟩
  | cons i is ih =>
    rw [agrees_cons]
    by_cases hC : C s i
    · obtain ⟨s', hone, hnext⟩ := hgood s t i h hC
      have hstep : next step s i = some s' := by rw [next, hone, Option.map_some]
      refine ⟨fun hall => ?_, fun hmeets => ⟨s', hone, (ih hnext).2 (hmeets.2 s' hstep)⟩⟩
      obtain ⟨s'', hone', hrest⟩ := hall
      obtain rfl : s' = s'' := (Prod.mk.inj (Option.some.inj (hone.symm.trans hone'))).1
      exact .cons hstep hC ((ih hnext).1 hrest)
    · refine ⟨fun hall => ?_, fun hmeets => absurd hmeets.1 hC⟩
      obtain ⟨s', hone, -⟩ := hall
      exact absurd hone (hbad s t i h hC s')

end Agrees

end InterviewPrep.Machine
