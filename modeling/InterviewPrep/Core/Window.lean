/-
Ring buffers: a queue kept in the slots `tail, tail + 1, …` modulo a capacity.

`Window cap slots head tail xs`: the slots from `tail` on, cyclically, hold `xs` in order, and `head` is the slot after
them. Nothing is said about the other slots. A push writes the slot at `head` and advances it, a pop advances `tail`; both
are proved once here (`Window.push`, `Window.pop`), whatever else an implementation keeps. `head = tail` means empty or
full (`head_eq_tail_iff`), so an implementation needs one more bit or a count; `Window.distance` recovers the length. In a
full window a push may take the place of the oldest value (`Window.overwrite`).

`Owned` is a window of pointers in which every slot outside is null.

`Fifo cap α` is what such buffers are for when they overwrite: the last `cap` of the values pushed and not popped.

`Keeps cap slots xs` is a ring without a `tail`: the values `xs` were written one after the other, round and round, and the
last `cap` of them are still where they were written.
-/
import Mathlib.Tactic

namespace InterviewPrep

/-- slot `i` of a window that starts at `tail` -/
def place (cap tail i : ℕ) : ℕ := (tail + i) % cap

section Place

variable {cap tail i j : ℕ}

theorem place_zero (h : tail < cap) : place cap tail 0 = tail := Nat.mod_eq_of_lt h

theorem place_lt (h : tail < cap) (i : ℕ) : place cap tail i < cap := Nat.mod_lt _ (Nat.zero_lt_of_lt h)

theorem place_succ (cap tail i : ℕ) : (place cap tail i + 1) % cap = place cap tail (i + 1) := by
  rw [place, place, Nat.mod_add_mod, Nat.add_assoc]

theorem place_advance (cap tail i : ℕ) : place cap ((tail + 1) % cap) i = place cap tail (i + 1) := by
  rw [place, place, Nat.mod_add_mod, Nat.add_assoc, Nat.add_comm 1]

theorem place_self (h : tail < cap) : place cap tail cap = tail := by
  rw [place, Nat.add_mod_right, Nat.mod_eq_of_lt h]

theorem place_inj (hi : i < cap) (hj : j < cap) (h : place cap tail i = place cap tail j) : i = j := by
  have hmod : i ≡ j [MOD cap] := Nat.ModEq.add_left_cancel' tail h
  rwa [Nat.ModEq, Nat.mod_eq_of_lt hi, Nat.mod_eq_of_lt hj] at hmod

/-- all slots, counted from `tail` -/
theorem place_perm (h : tail < cap) : ((List.range cap).map (place cap tail)).Perm (List.range cap) := by
  have hnodup : ((List.range cap).map (place cap tail)).Nodup :=
    List.Nodup.map_on (fun i hi j hj => place_inj (List.mem_range.1 hi) (List.mem_range.1 hj)) List.nodup_range
  have hsub : (List.range cap).map (place cap tail) ⊆ List.range cap := by
    intro j hj
    obtain ⟨i, -, rfl⟩ := List.mem_map.1 hj
    exact List.mem_range.2 (place_lt h i)
  exact (List.subperm_of_subset hnodup hsub).perm_of_length_le (by simp)

end Place

/-! ## Windows -/

/-- the slots from `tail` up to `head` hold `xs` -/
structure Window {β : Type} (cap : ℕ) (slots : ℕ → β) (head tail : ℕ) (xs : List β) : Prop where
  tail_lt : tail < cap
  bounded : xs.length ≤ cap
  head_eq : head = place cap tail xs.length
  read : ∀ i x, xs[i]? = some x → slots (place cap tail i) = x

namespace Window

variable {β : Type} {cap head tail j : ℕ} {slots : ℕ → β} {xs : List β} {x v : β}

theorem empty (h : tail < cap) (slots : ℕ → β) : Window cap slots tail tail [] where
  tail_lt := h
  bounded := Nat.zero_le cap
  head_eq := (place_zero h).symm
  read i x hi := by simp at hi

theorem head_lt (h : Window cap slots head tail xs) : head < cap := h.head_eq ▸ place_lt h.tail_lt _

/-- a slot outside may be overwritten -/
theorem write_outside (h : Window cap slots head tail xs) (hj : ∀ i < xs.length, place cap tail i ≠ j) (v : β) :
    Window cap (Function.update slots j v) head tail xs where
  tail_lt := h.tail_lt
  bounded := h.bounded
  head_eq := h.head_eq
  read i x hi := by
    have hlt : i < xs.length := (List.getElem?_eq_some_iff.1 hi).1
    rw [Function.update_of_ne (hj i hlt), h.read i x hi]

/-- while there is room, `head` is outside -/
theorem head_outside (h : Window cap slots head tail xs) (hroom : xs.length < cap) :
    ∀ i < xs.length, place cap tail i ≠ head := by
  intro i hi heq
  rw [h.head_eq] at heq
  exact absurd (place_inj (hi.trans hroom) hroom heq) (Nat.ne_of_lt hi)

theorem push (h : Window cap slots head tail xs) (hroom : xs.length < cap) (v : β) :
    Window cap (Function.update slots head v) ((head + 1) % cap) tail (xs ++ [v]) where
  tail_lt := h.tail_lt
  bounded := by simpa using hroom
  head_eq := by rw [h.head_eq, place_succ, List.length_append, List.length_singleton]
  read i x hi := by
    rcases Nat.lt_or_ge i xs.length with hlt | hge
    · rw [List.getElem?_append_left hlt] at hi
      exact (h.write_outside (h.head_outside hroom) v).read i x hi
    · obtain rfl : i = xs.length := by
        have hlt := (List.getElem?_eq_some_iff.1 hi).1
        rw [List.length_append, List.length_singleton] at hlt
        omega
      rw [List.getElem?_concat_length, Option.some.injEq] at hi
      rw [← h.head_eq, Function.update_self, hi]

theorem read_tail (h : Window cap slots head tail (x :: xs)) : slots tail = x := by
  have hread := h.read 0 x rfl
  rwa [place_zero h.tail_lt] at hread

theorem pop (h : Window cap slots head tail (x :: xs)) : Window cap slots head ((tail + 1) % cap) xs where
  tail_lt := Nat.mod_lt _ (Nat.zero_lt_of_lt h.tail_lt)
  bounded := (Nat.le_succ _).trans h.bounded
  head_eq := by rw [h.head_eq, place_advance, List.length_cons]
  read i y hi := by
    rw [place_advance]
    exact h.read (i + 1) y hi

/-- the slot a pop leaves behind is outside -/
theorem tail_outside (h : Window cap slots head tail (x :: xs)) :
    ∀ i < xs.length, place cap ((tail + 1) % cap) i ≠ tail := by
  intro i hi heq
  have hlen := h.bounded
  rw [List.length_cons] at hlen
  rw [place_advance] at heq
  have hzero : place cap tail (i + 1) = place cap tail 0 := heq.trans (place_zero h.tail_lt).symm
  have hi0 := place_inj (by omega) (Nat.zero_lt_of_lt h.tail_lt) hzero
  omega

theorem full (h : Window cap slots head tail xs) (hfull : xs.length = cap) : head = tail := by
  rw [h.head_eq, hfull, place_self h.tail_lt]

/-- in a full window the oldest value may be overwritten where it is -/
theorem overwrite (h : Window cap slots head tail (x :: xs)) (hfull : xs.length + 1 = cap) (v : β) :
    Window cap (Function.update slots tail v) ((tail + 1) % cap) ((tail + 1) % cap) (xs ++ [v]) := by
  have hhead : head = tail := h.full hfull
  rw [hhead] at h
  exact h.pop.push (hfull ▸ Nat.lt_succ_self _) v

theorem head_eq_tail_iff (h : Window cap slots head tail xs) : head = tail ↔ xs = [] ∨ xs.length = cap := by
  constructor
  · intro heq
    rcases Nat.lt_or_ge xs.length cap with hlt | hge
    · left
      rw [h.head_eq] at heq
      have hzero : place cap tail xs.length = place cap tail 0 := heq.trans (place_zero h.tail_lt).symm
      exact List.eq_nil_of_length_eq_zero (place_inj hlt (Nat.zero_lt_of_lt h.tail_lt) hzero)
    · exact Or.inr (Nat.le_antisymm h.bounded hge)
  · rintro (rfl | hfull)
    · exact h.head_eq.trans (place_zero h.tail_lt)
    · exact h.full hfull

/-- unless it is full, a window is as long as the way from `tail` to `head` -/
theorem distance (h : Window cap slots head tail xs) (hroom : xs.length < cap) :
    ((head : ℤ) - tail) % cap = xs.length := by
  have hcast : (head : ℤ) = ((tail : ℤ) + xs.length) % cap := by
    rw [h.head_eq, place]
    push_cast
    rfl
  rw [hcast, Int.emod_sub_emod, add_sub_cancel_left]
  exact Int.emod_eq_of_lt (Int.natCast_nonneg _) (Int.ofNat_lt.2 hroom)

end Window

/-! ## Owned windows -/

/-- a window of pointers; the slots outside are null -/
structure Owned {β : Type} (cap : ℕ) (slots : ℕ → Option β) (head tail : ℕ) (xs : List β) : Prop where
  window : Window cap slots head tail (xs.map some)
  null : ∀ j < cap, (∀ i < xs.length, place cap tail i ≠ j) → slots j = none

namespace Owned

variable {β : Type} {cap head tail : ℕ} {slots : ℕ → Option β} {xs : List β} {x : β}

theorem empty (h : tail < cap) : Owned cap (fun _ => (none : Option β)) tail tail [] where
  window := Window.empty h _
  null _ _ _ := rfl

theorem push (h : Owned cap slots head tail xs) (hroom : xs.length < cap) (v : β) :
    Owned cap (Function.update slots head (some v)) ((head + 1) % cap) tail (xs ++ [v]) where
  window := by
    rw [List.map_append, List.map_singleton]
    exact h.window.push (by rwa [List.length_map]) (some v)
  null j hj hout := by
    rw [List.length_append, List.length_singleton] at hout
    have hhead := h.window.head_eq
    rw [List.length_map] at hhead
    have hne : j ≠ head := fun heq => hout xs.length (Nat.lt_succ_self _) (hhead.symm.trans heq.symm)
    rw [Function.update_of_ne hne]
    exact h.null j hj fun i hi => hout i (Nat.lt_succ_of_lt hi)

theorem pop (h : Owned cap slots head tail (x :: xs)) :
    Owned cap (Function.update slots tail none) head ((tail + 1) % cap) xs where
  window := h.window.pop.write_outside h.window.tail_outside none
  null j hj hout := by
    rcases eq_or_ne j tail with rfl | hne
    · exact Function.update_self ..
    · rw [Function.update_of_ne hne]
      apply h.null j hj
      intro i hi
      rcases i with - | i
      · rw [place_zero h.window.tail_lt]
        exact hne.symm
      · rw [← place_advance]
        exact hout i (Nat.lt_of_succ_lt_succ hi)

theorem overwrite (h : Owned cap slots head tail (x :: xs)) (hfull : xs.length + 1 = cap) (v : β) :
    Owned cap (Function.update slots tail (some v)) ((tail + 1) % cap) ((tail + 1) % cap) (xs ++ [v]) := by
  have hhead : head = tail := h.window.full (by rwa [List.length_map])
  have hpush := h.pop.push (hfull ▸ Nat.lt_succ_self _) v
  rwa [hhead, Function.update_idem] at hpush

/-- the non-null slots are those of the window -/
theorem isSome_iff (h : Owned cap slots head tail xs) {j : ℕ} (hj : j < cap) :
    (slots j).isSome ↔ ∃ i < xs.length, j = place cap tail i := by
  constructor
  · intro hsome
    by_contra hno
    push Not at hno
    rw [h.null j hj fun i hi heq => hno i hi heq.symm] at hsome
    cases hsome
  · rintro ⟨i, hi, rfl⟩
    rw [h.window.read i (some (xs.get ⟨i, hi⟩)) (by simp [hi])]
    rfl

/-- a sweep over all slots finds the pointers of the window, each where it is -/
theorem perm (h : Owned cap slots head tail xs) : ((List.range cap).filterMap slots).Perm xs := by
  obtain ⟨n, hn⟩ := Nat.exists_eq_add_of_le (h.window.bounded.trans_eq' (List.length_map _))
  have hsplit : List.range cap = List.range xs.length ++ (List.range n).map (xs.length + ·) := by
    rw [hn, List.range_add]
  have hreads : (List.range xs.length).map (slots ∘ place cap tail) = xs.map some := by
    apply List.ext_getElem
    · simp
    · intro i hi hi'
      rw [List.getElem_map, List.getElem_range, Function.comp_apply]
      exact h.window.read i _ (List.getElem?_eq_getElem hi')
  have hwindow : (List.range xs.length).filterMap (slots ∘ place cap tail) = xs := by
    rw [← Function.id_comp (slots ∘ place cap tail), ← List.filterMap_map, hreads, List.filterMap_map]
    exact List.filterMap_some
  have houtside : ((List.range n).map (xs.length + ·)).filterMap (slots ∘ place cap tail) = [] := by
    rw [List.filterMap_eq_nil_iff]
    intro i hi
    obtain ⟨d, hd, rfl⟩ := List.mem_map.1 hi
    have hlt : xs.length + d < cap := hn ▸ Nat.add_lt_add_left (List.mem_range.1 hd) _
    apply h.null _ (place_lt h.window.tail_lt _)
    intro k hk heq
    exact absurd (place_inj ((Nat.lt_add_right d hk).trans hlt) hlt heq) (Nat.ne_of_lt (Nat.lt_add_right d hk))
  calc (List.range cap).filterMap slots
      |>.Perm (((List.range cap).map (place cap tail)).filterMap slots) := (place_perm h.window.tail_lt).symm.filterMap _
    _ = xs := by rw [List.filterMap_map, hsplit, List.filterMap_append, hwindow, houtside, List.append_nil]

end Owned

/-! ## The overwriting queue -/

/-- at most `cap` values, oldest first -/
structure Fifo (cap : ℕ) (α : Type) where
  items : List α
  bounded : items.length ≤ cap

namespace Fifo

variable {cap : ℕ} {α : Type}

def empty : Fifo cap α := ⟨[], Nat.zero_le cap⟩

/-- the oldest value goes if there are too many -/
def push (q : Fifo cap α) (x : α) : Fifo cap α where
  items := (q.items ++ [x]).drop (q.items.length + 1 - cap)
  bounded := by
    have hb := q.bounded
    rw [List.length_drop, List.length_append, List.length_singleton]
    omega

def pop (q : Fifo cap α) : Fifo cap α × Option α :=
  (⟨q.items.tail, ((List.tail_sublist _).length_le).trans q.bounded⟩, q.items.head?)

theorem push_room {q : Fifo cap α} (h : q.items.length < cap) (x : α) : (q.push x).items = q.items ++ [x] := by
  show (q.items ++ [x]).drop (q.items.length + 1 - cap) = q.items ++ [x]
  rw [Nat.sub_eq_zero_of_le h, List.drop_zero]

theorem push_full {q : Fifo cap α} {y : α} {ys : List α} (hitems : q.items = y :: ys) (h : q.items.length = cap)
    (x : α) : (q.push x).items = ys ++ [x] := by
  show (q.items ++ [x]).drop (q.items.length + 1 - cap) = ys ++ [x]
  rw [h, Nat.add_sub_cancel_left, hitems, List.cons_append, List.drop_one, List.tail_cons]

theorem pop_cons {q : Fifo cap α} {y : α} {ys : List α} (hitems : q.items = y :: ys) :
    q.pop.1.items = ys ∧ q.pop.2 = some y := by
  simp [pop, hitems]

end Fifo

/-! ## The last values written -/

def Keeps {β : Type} (cap : ℕ) (slots : ℕ → β) (xs : List β) : Prop :=
  ∀ n x, xs[n]? = some x → xs.length ≤ n + cap → slots (n % cap) = x

namespace Keeps

variable {β : Type} {cap n : ℕ} {slots : ℕ → β} {xs : List β}

theorem nil (cap : ℕ) (slots : ℕ → β) : Keeps cap slots [] := by
  intro n x hn
  simp at hn

theorem write (h : Keeps cap slots xs) (v : β) :
    Keeps cap (Function.update slots (xs.length % cap) v) (xs ++ [v]) := by
  intro n x hn hlast
  rw [List.length_append, List.length_singleton] at hlast
  rcases Nat.lt_or_ge n xs.length with hlt | hge
  · rw [List.getElem?_append_left hlt] at hn
    -- fewer than `cap` places before the write
    have hne : n % cap ≠ xs.length % cap := by
      intro heq
      have hdvd : cap ∣ xs.length - n := (Nat.modEq_iff_dvd' hlt.le).1 heq
      exact absurd (Nat.le_of_dvd (Nat.sub_pos_of_lt hlt) hdvd) (by omega)
    rw [Function.update_of_ne hne]
    exact h n x hn (by omega)
  · obtain rfl : n = xs.length := by
      have hlt := (List.getElem?_eq_some_iff.1 hn).1
      rw [List.length_append, List.length_singleton] at hlt
      omega
    rw [List.getElem?_concat_length, Option.some.injEq] at hn
    rw [Function.update_self, hn]

/-- a value that is gone was overwritten by a later one -/
theorem later (h : Keeps cap slots xs) (hcap : 0 < cap) (hgone : n + cap < xs.length) :
    ∃ m, n < m ∧ xs[m]? = some (slots (n % cap)) := by
  have hdiv := Nat.div_add_mod (xs.length - 1 - n) cap
  have hmod := Nat.mod_lt (xs.length - 1 - n) hcap
  have hquot : 0 < (xs.length - 1 - n) / cap := Nat.div_pos (by omega) hcap
  have hstep : 0 < cap * ((xs.length - 1 - n) / cap) := Nat.mul_pos hcap hquot
  have hlt : n + cap * ((xs.length - 1 - n) / cap) < xs.length := by omega
  refine ⟨n + cap * ((xs.length - 1 - n) / cap), by omega, ?_⟩
  have hread := h _ _ (List.getElem?_eq_getElem hlt) (by omega)
  rw [Nat.add_mul_mod_self_left] at hread
  rw [hread, List.getElem?_eq_getElem hlt]

end Keeps

end InterviewPrep
