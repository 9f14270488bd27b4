/-
Loops in a singly linked list: pureStorage/detectLoopLinkedList.cpp; and its middle: pureStorage/middleNodeLinkedList.cpp.

A heap is its `next` fields. The `while` loops are made for at most `fuel` rounds; a loop that has not ended by then, and a null
pointer that is dereferenced, are `none`. `nth next head k` is where `k` steps from `head` lead, null after the end.

The list from `head` is an orbit of pointers, and null is its cycle when it ends (`Orbit.Rho`). The cursors of the first loop
are at `k` and `2 * k`, so they meet at a multiple of the length of the cycle, and from there on the steps to the start of the
cycle are as many as from `head`.
- `loops_found`: `detectLoop` and `startOfLoop` end for every finite structure, with the right answer.
- `fixLoop_iff`: when `fixLoop` does what it should. It takes the equality of the two cursors for a loop, which an empty list
  and a list of one node have without one; and where the loop goes back to `head`, both cursors are at `head`, and the cut
  is made after it.
- `middleNode_iff`: `middleNode` ends exactly for a list that ends, at the node in its middle, and dereferences no null pointer
  in one that does not end either.
-/
import InterviewPrep.Core.HeapChain
import InterviewPrep.Core.Orbit

namespace InterviewPrep.LinkedList.Loop

variable {Addr : Type}

/-! ## Model -/

section Model

variable [DecidableEq Addr]

/-- `p->next` -/
def load (next : Addr → Option Addr) (p : Option Addr) : Option (Option Addr) := p.map next

/-- where the first loop of all three functions leaves the cursors, and whether it found them equal -/
structure Race (Addr : Type) where
  slow : Option Addr
  fast : Option Addr
  met : Bool

/-- `while (fast != nullptr && fast->next != nullptr)` -/
def race (next : Addr → Option Addr) : ℕ → Option Addr → Option Addr → Option (Race Addr)
  | 0, _, _ => none
  | _ + 1, slow, none => some ⟨slow, none, false⟩
  | fuel + 1, slow, some a =>
    match next a with
    | none => some ⟨slow, some a, false⟩
    | some b => do
      let slow ← load next slow
      let fast := next b
      if slow = fast then some ⟨slow, fast, true⟩ else race next fuel slow fast

def detectLoop (next : Addr → Option Addr) (fuel : ℕ) (head : Option Addr) : Option Bool :=
  (race next fuel head head).map Race.met

/-- `while (slow != fast)` -/
def catchUp (next : Addr → Option Addr) : ℕ → Option Addr → Option Addr → Option (Option Addr)
  | 0, _, _ => none
  | fuel + 1, slow, fast =>
    if slow ≠ fast then do
      let slow ← load next slow
      let fast ← load next fast
      catchUp next fuel slow fast
    else some slow

def startOfLoop (next : Addr → Option Addr) (fuel : ℕ) (head : Option Addr) : Option (Option Addr) := do
  let r ← race next fuel head head
  match r.fast with
  | none => some none
  | some a =>
    match next a with
    | none => some none
    | some _ => catchUp next fuel head r.fast

/-- `while (slow->next != fast->next)`, and where it leaves `fast` -/
def findLast (next : Addr → Option Addr) : ℕ → Option Addr → Option Addr → Option (Option Addr)
  | 0, _, _ => none
  | fuel + 1, slow, fast => do
    let slow' ← load next slow
    let fast' ← load next fast
    if slow' ≠ fast' then findLast next fuel slow' fast' else some fast

/-- the answer and the heap afterwards -/
def fixLoop (next : Addr → Option Addr) (fuel : ℕ) (head : Option Addr) : Option (Bool × (Addr → Option Addr)) := do
  let r ← race next fuel head head
  if r.slow = r.fast then do
    let fast ← findLast next fuel head r.fast
    let last ← fast
    some (true, Function.update next last none)
  else some (false, next)

end Model

/-! ## Paths -/

/-- a step from null stays there -/
def step (next : Addr → Option Addr) (p : Option Addr) : Option Addr := p.bind next

def nth (next : Addr → Option Addr) (head : Option Addr) (k : ℕ) : Option Addr := (step next)^[k] head

/-- the nodes of the structure -/
def reachable (next : Addr → Option Addr) (head : Option Addr) : Set Addr := {a | ∃ k, nth next head k = some a}

def OnCycle (next : Addr → Option Addr) (a : Addr) : Prop := ∃ m > 0, nth next (some a) m = some a

def HasCycle (next : Addr → Option Addr) (head : Option Addr) : Prop := ∃ a ∈ reachable next head, OnCycle next a

/-- the first `n` nodes of the path -/
def walk (next : Addr → Option Addr) : ℕ → Option Addr → List Addr
  | 0, _ => []
  | _ + 1, none => []
  | n + 1, some a => a :: walk next n (next a)

variable {next : Addr → Option Addr} {head : Option Addr} {a b : Addr} {tail period k n fuel : ℕ}

theorem nth_succ (next : Addr → Option Addr) (head : Option Addr) (k : ℕ) :
    nth next head (k + 1) = (nth next head k).bind next := Function.iterate_succ_apply' _ _ _

theorem nth_some_succ (next : Addr → Option Addr) (a : Addr) (k : ℕ) : nth next (some a) (k + 1) = nth next (next a) k :=
  Function.iterate_succ_apply _ _ _

theorem nth_add (next : Addr → Option Addr) (head : Option Addr) (m k : ℕ) :
    nth next head (m + k) = nth next (nth next head k) m := Function.iterate_add_apply _ _ _ _

theorem nth_none (next : Addr → Option Addr) (k : ℕ) : nth next none k = none :=
  Function.iterate_fixed (f := step next) rfl k

/-- after the end there is nothing -/
theorem nth_after {m : ℕ} (hk : nth next head k = none) (hm : k ≤ m) : nth next head m = none := by
  obtain ⟨d, rfl⟩ := Nat.exists_eq_add_of_le hm
  rw [add_comm, nth_add, hk, nth_none]

theorem load_nth (hk : nth next head k ≠ none) : load next (nth next head k) = some (nth next head (k + 1)) := by
  obtain ⟨a, ha⟩ := Option.ne_none_iff_exists'.1 hk
  rw [nth_succ, ha]
  rfl

theorem getElem?_walk (next : Addr → Option Addr) (n : ℕ) (head : Option Addr) {i : ℕ} (hi : i < n) :
    (walk next n head)[i]? = nth next head i := by
  induction n generalizing head i with
  | zero => cases hi
  | succ n ih =>
    cases head with
    | none => rw [nth_none, walk, List.getElem?_nil]
    | some a =>
      cases i with
      | zero => rfl
      | succ i => rw [walk, List.getElem?_cons_succ, nth_some_succ, ih (next a) (by omega)]

theorem length_walk_le (next : Addr → Option Addr) (n : ℕ) (head : Option Addr) : (walk next n head).length ≤ n := by
  induction n generalizing head with
  | zero => exact le_rfl
  | succ n ih =>
    cases head with
    | none => exact Nat.zero_le _
    | some a => exact Nat.succ_le_succ (ih (next a))

/-- the path to the end is the list -/
theorem chain_walk (hn : nth next head n = none) : HeapChain (fun a => some (next a)) head (walk next n head) := by
  induction n generalizing head with
  | zero =>
    obtain rfl : head = none := hn
    rfl
  | succ n ih =>
    cases head with
    | none => rfl
    | some a => exact ⟨rfl, next a, rfl, ih (by rwa [nth_some_succ] at hn)⟩

/-- cut after its last node, a path without repetitions is a list -/
theorem chain_cut [DecidableEq Addr] (hn : nth next head n = some a) (hnodup : (walk next (n + 1) head).Nodup) :
    HeapChain (fun b => some (Function.update next a none b)) head (walk next (n + 1) head) := by
  induction n generalizing head with
  | zero =>
    obtain rfl : head = some a := hn
    exact ⟨rfl, none, congrArg some (Function.update_self a none next), rfl⟩
  | succ n ih =>
    cases head with
    | none =>
      rw [nth_none] at hn
      cases hn
    | some b =>
      rw [nth_some_succ] at hn
      rw [walk, List.nodup_cons] at hnodup
      have hmem : a ∈ walk next (n + 1) (next b) := by
        apply List.mem_of_getElem?
        rw [getElem?_walk next (n + 1) (next b) (Nat.lt_succ_self n), hn]
      have hne : b ≠ a := fun heq => hnodup.1 (heq ▸ hmem)
      exact ⟨rfl, next b, congrArg some (Function.update_of_ne hne none next), ih hn hnodup.2⟩

/-! ## The shape of a finite structure -/

theorem exists_rho (hfin : (reachable next head).Finite) : ∃ tail period, Orbit.Rho (step next) head tail period := by
  apply Orbit.exists_rho
  refine ((hfin.image some).insert none).subset ?_
  rintro p ⟨k, rfl⟩
  show nth next head k ∈ _
  cases hp : nth next head k with
  | none => exact Set.mem_insert _ _
  | some a => exact Set.mem_insert_of_mem _ ⟨a, ⟨k, hp⟩, rfl⟩

section Shape

variable (h : Orbit.Rho (step next) head tail period)
include h

theorem nth_eq_iff {i j : ℕ} : nth next head i = nth next head j ↔ i = j ∨ tail ≤ i ∧ tail ≤ j ∧ i ≡ j [MOD period] :=
  h.eq_iff

/-- a list that ends does so at the end of the tail -/
theorem nth_tail_of_ends (hk : nth next head k = none) : nth next head tail = none := by
  have hpos := Nat.le_mul_of_pos_right k h.pos
  rw [(nth_eq_iff h (i := tail) (j := tail + k * period)).2]
  · exact nth_after hk (by omega)
  · exact Or.inr ⟨le_rfl, by omega, (Nat.add_mul_modulus_modEq_iff.2 rfl).symm⟩

theorem onCycle_iff (hk : nth next head k = some a) : OnCycle next a ↔ tail ≤ k := by
  unfold OnCycle
  rw [← hk]
  exact h.returns_iff

theorem hasCycle_iff : HasCycle next head ↔ ∀ k, nth next head k ≠ none := by
  constructor
  · intro hcycle k hk
    obtain ⟨a, ⟨i, hi⟩, ha⟩ := hcycle
    rw [onCycle_iff h hi] at ha
    rw [nth_after (nth_tail_of_ends h hk) ha] at hi
    cases hi
  · intro hall
    obtain ⟨a, ha⟩ := Option.ne_none_iff_exists'.1 (hall tail)
    exact ⟨a, ⟨tail, ha⟩, (onCycle_iff h ha).2 le_rfl⟩

theorem nodup_walk : (walk next (tail + period) head).Nodup := by
  rw [List.nodup_iff_getElem?_ne_getElem?]
  intro i j hij hj heq
  have hlen := length_walk_le next (tail + period) head
  rw [getElem?_walk next _ head (by omega), getElem?_walk next _ head (by omega)] at heq
  have := h.inj i (by omega) j (by omega) heq
  omega

theorem mem_walk (ha : a ∈ reachable next head) : a ∈ walk next (tail + period) head := by
  obtain ⟨k, hk⟩ := ha
  obtain ⟨i, hi, heq⟩ : ∃ i < tail + period, nth next head i = nth next head k := by
    rcases Nat.lt_or_ge k tail with hlt | hge
    · exact ⟨k, by omega, rfl⟩
    · obtain ⟨d, rfl⟩ := Nat.exists_eq_add_of_le hge
      exact ⟨tail + d % period, Nat.add_lt_add_left (Nat.mod_lt d h.pos) tail, h.iterate_mod d⟩
  apply List.mem_of_getElem?
  rw [getElem?_walk next _ head hi, heq, hk]

end Shape

/-! ## The race -/

section Race

variable [DecidableEq Addr]

/-- after the round that starts with the cursors at `k` and `2 * k` they are at `k + 1` and `2 * (k + 1)` -/
theorem race_round (hk : nth next head (2 * k + 1) ≠ none) :
    race next (fuel + 1) (nth next head k) (nth next head (2 * k)) =
      if nth next head (k + 1) = nth next head (2 * (k + 1)) then
        some ⟨nth next head (k + 1), nth next head (2 * (k + 1)), true⟩
      else race next fuel (nth next head (k + 1)) (nth next head (2 * (k + 1))) := by
  have hslow : nth next head k ≠ none := fun hnone => hk (nth_after hnone (by omega))
  have hfast : nth next head (2 * k) ≠ none := fun hnone => hk (nth_after hnone (by omega))
  obtain ⟨a, ha⟩ := Option.ne_none_iff_exists'.1 hfast
  obtain ⟨b, hb⟩ := Option.ne_none_iff_exists'.1 hk
  have hab : next a = some b := by rw [← hb, nth_succ, ha, Option.bind_some]
  have htwo : nth next head (2 * (k + 1)) = next b := by
    rw [show 2 * (k + 1) = 2 * k + 1 + 1 by ring, nth_succ, hb, Option.bind_some]
  rw [ha, race, hab]
  show ((load next (nth next head k)).bind _) = _
  rw [load_nth hslow, Option.bind_some, htwo]

/-- the last round -/
theorem race_ends (hk : nth next head (2 * k + 1) = none) :
    race next (fuel + 1) (nth next head k) (nth next head (2 * k)) =
      some ⟨nth next head k, nth next head (2 * k), false⟩ := by
  rw [nth_succ] at hk
  cases ha : nth next head (2 * k) with
  | none => rfl
  | some a =>
    rw [ha, Option.bind_some] at hk
    rw [race, hk]

/-- the rounds before the cursors meet or the list ends -/
theorem race_rounds (d : ℕ) (hd : ∀ j < d, nth next head (2 * j + 1) ≠ none ∧ nth next head (j + 1) ≠ nth next head (2 * (j + 1))) :
    race next (fuel + d) head head = race next fuel (nth next head d) (nth next head (2 * d)) := by
  induction d generalizing fuel with
  | zero => rfl
  | succ d ih =>
    obtain ⟨hgoes, hmeet⟩ := hd d (Nat.lt_succ_self d)
    rw [← add_assoc, add_right_comm, ih fun j hj => hd j (by omega), race_round hgoes, if_neg hmeet]

variable (h : Orbit.Rho (step next) head tail period)
include h

/-- in a loop the cursors meet after a number of rounds that is a multiple of its length -/
theorem race_meets (hall : ∀ k, nth next head k ≠ none) :
    ∃ k > 0, tail ≤ k ∧ period ∣ k ∧ ∀ fuel ≥ k, race next fuel head head = some ⟨nth next head k, nth next head k, true⟩ := by
  have hmeets : ∃ k, nth next head (k + 1) = nth next head (2 * (k + 1)) := by
    obtain ⟨k, hpos, -, hlow, hdvd⟩ := h.exists_meet
    obtain ⟨k, rfl⟩ := Nat.exists_eq_add_of_le' hpos
    exact ⟨k, (h.meet_iff hpos).2 ⟨hlow, hdvd⟩⟩
  have hspec := Nat.find_spec hmeets
  obtain ⟨hlow, hdvd⟩ := (h.meet_iff (Nat.succ_pos _)).1 hspec
  refine ⟨Nat.find hmeets + 1, Nat.succ_pos _, hlow, hdvd, fun fuel hfuel => ?_⟩
  obtain ⟨rest, rfl⟩ := Nat.exists_eq_add_of_le' hfuel
  rw [← add_assoc, add_right_comm, race_rounds _ fun j hj => ⟨hall _, Nat.find_min hmeets hj⟩, race_round (hall _),
    if_pos hspec, ← hspec]

/-- in a list that ends they do not, unless it has at most one node -/
theorem race_apart (hend : nth next head tail = none) (hfuel : tail / 2 < fuel) :
    race next fuel head head = some ⟨nth next head (tail / 2), nth next head (2 * (tail / 2)), false⟩ := by
  obtain ⟨rest, rfl⟩ : ∃ rest, fuel = rest + 1 + tail / 2 := ⟨fuel - tail / 2 - 1, by omega⟩
  have hgoes : ∀ j < tail, nth next head j ≠ none := by
    intro j hj hnone
    have := (nth_eq_iff h).1 (hnone.trans hend.symm)
    omega
  rw [race_rounds]
  · exact race_ends (nth_after hend (by omega))
  · intro j hj
    refine ⟨hgoes _ (by omega), fun hmeet => ?_⟩
    have := (h.meet_iff (Nat.succ_pos j)).1 hmeet
    omega

end Race

/-! ## The start of the loop -/

section Start

variable [DecidableEq Addr] (h : Orbit.Rho (step next) head tail period) (hall : ∀ k, nth next head k ≠ none)
include h hall

variable {m i : ℕ} (hm : 0 < m) (hdvd : period ∣ m)
include hm hdvd

omit [DecidableEq Addr] hall in
/-- a cursor that is a multiple of the period ahead is at the same node on the cycle, and only there -/
theorem ahead_iff : nth next head i = nth next head (m + i) ↔ tail ≤ i := by
  have hmod : i ≡ m + i [MOD period] := by
    rw [Nat.modEq_iff_dvd' (by omega), Nat.add_sub_cancel]
    exact hdvd
  rw [nth_eq_iff h]
  constructor
  · rintro (heq | ⟨hi, -, -⟩)
    · omega
    · exact hi
  · intro hi
    exact Or.inr ⟨hi, by omega, hmod⟩

theorem catchUp_eq (hi : i ≤ tail) (hfuel : tail - i < fuel) :
    catchUp next fuel (nth next head i) (nth next head (m + i)) = some (nth next head tail) := by
  induction fuel generalizing i with
  | zero => cases hfuel
  | succ fuel ih =>
    rw [catchUp]
    rcases hi.eq_or_lt with rfl | hlt
    · rw [if_neg (not_not.2 ((ahead_iff h hm hdvd).2 le_rfl))]
    · rw [if_pos fun heq => hlt.not_ge ((ahead_iff h hm hdvd).1 heq), load_nth (hall i), load_nth (hall (m + i))]
      exact ih hlt (by omega)

/-- the cursors stop one step before the start of the loop, or at once where that is `head` -/
theorem findLast_eq (hi : i ≤ tail - 1) (hfuel : tail - 1 - i < fuel) :
    findLast next fuel (nth next head i) (nth next head (m + i)) = some (nth next head (m + (tail - 1))) := by
  induction fuel generalizing i with
  | zero => cases hfuel
  | succ fuel ih =>
    rw [findLast, load_nth (hall i), load_nth (hall (m + i))]
    show (if nth next head (i + 1) ≠ nth next head (m + (i + 1)) then _ else _) = _
    rcases hi.eq_or_lt with rfl | hlt
    · rw [if_neg (not_not.2 ((ahead_iff h hm hdvd).2 (by omega)))]
    · rw [if_pos fun heq => absurd ((ahead_iff h hm hdvd).1 heq) (by omega)]
      exact ih hlt (by omega)

end Start

/-- the first node on the path from `head` that lies on the cycle, or null -/
def IsStart (next : Addr → Option Addr) (head start : Option Addr) : Prop :=
  (¬ HasCycle next head ∧ start = none) ∨
    ∃ k a, start = some a ∧ nth next head k = some a ∧ OnCycle next a ∧
      ∀ i < k, ∀ b, nth next head i = some b → ¬ OnCycle next b

section Found

variable (h : Orbit.Rho (step next) head tail period)
include h

/-- the start of a loop -/
theorem isStart_tail (hall : ∀ k, nth next head k ≠ none) : IsStart next head (nth next head tail) := by
  obtain ⟨a, ha⟩ := Option.ne_none_iff_exists'.1 (hall tail)
  refine Or.inr ⟨tail, a, ha, ha, (onCycle_iff h ha).2 le_rfl, fun i hi b hb hcycle => ?_⟩
  exact hi.not_ge ((onCycle_iff h hb).1 hcycle)

/-- from where the cursors met, one goes on while the other starts again -/
theorem startOfLoop_cyclic [DecidableEq Addr] (hall : ∀ k, nth next head k ≠ none) {m : ℕ} {met : Bool} (hm : 0 < m)
    (hdvd : period ∣ m) (hrace : race next fuel head head = some ⟨nth next head m, nth next head m, met⟩) (hfuel : tail < fuel) :
    startOfLoop next fuel head = some (nth next head tail) := by
  obtain ⟨a, ha⟩ := Option.ne_none_iff_exists'.1 (hall m)
  obtain ⟨b, hb⟩ := Option.ne_none_iff_exists'.1 (hall (m + 1))
  have hab : next a = some b := by rw [← hb, nth_succ, ha, Option.bind_some]
  have hcatch := catchUp_eq h hall hm hdvd (Nat.zero_le tail) (show tail - 0 < fuel by omega)
  rw [startOfLoop, hrace]
  show (match nth next head m with | none => _ | some a => _) = _
  rw [ha]
  show (match next a with | none => _ | some _ => catchUp next fuel head (some a)) = _
  rw [hab, ← ha]
  exact hcatch

/-- in a list that ends the fast cursor is at its last node, or after it -/
theorem startOfLoop_ending [DecidableEq Addr] (hend : nth next head tail = none) (hfuel : tail / 2 < fuel) :
    startOfLoop next fuel head = some none := by
  have hlast : nth next head (2 * (tail / 2) + 1) = none := nth_after hend (by omega)
  rw [nth_succ] at hlast
  rw [startOfLoop, race_apart h hend hfuel]
  show (match nth next head (2 * (tail / 2)) with | none => _ | some a => _) = _
  cases ha : nth next head (2 * (tail / 2)) with
  | none => rfl
  | some a =>
    rw [ha, Option.bind_some] at hlast
    show (match next a with | none => _ | some _ => _) = _
    rw [hlast]

end Found

/-- **Loops are found.** For every finite structure and enough rounds, `detectLoop` says whether the list has no end, and
`startOfLoop` returns the first node of the cycle, or null if there is none. -/
theorem loops_found [DecidableEq Addr] (next : Addr → Option Addr) (head : Option Addr) (hfin : (reachable next head).Finite) :
    ∃ rounds, ∀ fuel ≥ rounds,
      (∃ found, detectLoop next fuel head = some found ∧ (found = true ↔ ∀ k, nth next head k ≠ none)) ∧
        ∃ start, startOfLoop next fuel head = some start ∧ IsStart next head start := by
  obtain ⟨tail, period, h⟩ := exists_rho hfin
  by_cases hall : ∀ k, nth next head k ≠ none
  · obtain ⟨m, hm, hlow, hdvd, hrace⟩ := race_meets h hall
    refine ⟨m + 1, fun fuel hfuel => ⟨⟨true, ?_, by simp [hall]⟩, _, ?_, isStart_tail h hall⟩⟩
    · rw [detectLoop, hrace fuel (by omega), Option.map_some]
    · exact startOfLoop_cyclic h hall hm hdvd (hrace fuel (by omega)) (by omega)
  · have hnot : ¬ HasCycle next head := fun hcycle => hall ((hasCycle_iff h).1 hcycle)
    have hend : nth next head tail = none := by
      obtain ⟨k, hk⟩ := not_forall.1 hall
      exact nth_tail_of_ends h (not_not.1 hk)
    refine ⟨tail / 2 + 1, fun fuel hfuel => ?_⟩
    refine ⟨⟨false, ?_, by simpa using hall⟩, none, startOfLoop_ending h hend hfuel, Or.inl ⟨hnot, rfl⟩⟩
    rw [detectLoop, race_apart h hend hfuel, Option.map_some]

/-- the list that `main` makes, 1 -> 2 -> 3 -> 4 -> 2, with the addresses 0 to 3 -/
def mainList : Fin 4 → Option (Fin 4) := ![some 1, some 2, some 3, some 1]

theorem loops_found_main :
    (reachable mainList (some 0)).Finite ∧
      (∃ rounds, ∀ fuel ≥ rounds,
        (∃ found, detectLoop mainList fuel (some 0) = some found ∧ (found = true ↔ ∀ k, nth mainList (some 0) k ≠ none)) ∧
          ∃ start, startOfLoop mainList fuel (some 0) = some start ∧ IsStart mainList (some 0) start) ∧
        detectLoop mainList 4 (some 0) = some true ∧ startOfLoop mainList 4 (some 0) = some (some 1) :=
  ⟨Set.toFinite _, loops_found mainList (some 0) (Set.toFinite _), by decide, by decide⟩

/-! ## Repair -/

section Fix

variable [DecidableEq Addr]

/-- in `next'` the list from `head` ends, with the nodes of the structure in `next` in the order in which they are reached -/
def Unrolled (next next' : Addr → Option Addr) (head : Option Addr) : Prop :=
  ∃ l, HeapChain (fun a => some (next' a)) head l ∧ (∀ i < l.length, l[i]? = nth next head i) ∧
    ∀ a ∈ reachable next head, a ∈ l

/-- `fixLoop` ends, says whether there was a cycle and cuts it open, and leaves a list without one alone -/
def Repairs (next : Addr → Option Addr) (head : Option Addr) : Prop :=
  ∃ rounds, ∀ fuel ≥ rounds, ∃ fixed next', fixLoop next fuel head = some (fixed, next') ∧
    (fixed = true ↔ HasCycle next head) ∧ Unrolled next next' head ∧ (¬ HasCycle next head → next' = next)

/-- what `fixLoop` makes of an equality of the cursors -/
theorem fixLoop_met {met : Bool} {p : Option Addr} (hrace : race next fuel head head = some ⟨p, p, met⟩)
    (hlast : findLast next fuel head p = some (some a)) :
    fixLoop next fuel head = some (true, Function.update next a none) := by
  rw [fixLoop, hrace]
  show (if p = p then (findLast next fuel head p).bind _ else _) = _
  rw [if_pos rfl, hlast]
  rfl

theorem fixLoop_apart {r : Race Addr} (hrace : race next fuel head head = some r) (hne : r.slow ≠ r.fast) :
    fixLoop next fuel head = some (false, next) := by
  rw [fixLoop, hrace]
  exact if_neg hne

/-- an empty list has equal cursors, and no node -/
theorem fixLoop_null (next : Addr → Option Addr) (fuel : ℕ) : fixLoop next fuel none = none := by
  cases fuel with
  | zero => rfl
  | succ fuel => rfl

/-- so has a list of one node -/
theorem fixLoop_single (ha : next a = none) :
    fixLoop next (fuel + 1) (some a) = some (true, Function.update next a none) := by
  have hrace : race next (fuel + 1) (some a) (some a) = some ⟨some a, some a, false⟩ := by rw [race, ha]
  refine fixLoop_met hrace ?_
  show (if next a ≠ next a then _ else _) = _
  rw [if_neg (not_not.2 rfl)]

variable (h : Orbit.Rho (step next) head tail period)
include h

/-- a list of at least two nodes that ends -/
theorem repairs_ending (hend : nth next head tail = none) (htwo : 2 ≤ tail) : Repairs next head := by
  have hnot : ¬ HasCycle next head := fun hcycle => (hasCycle_iff h).1 hcycle tail hend
  refine ⟨tail / 2 + 1, fun fuel hfuel => ⟨false, next, ?_, by simp [hnot], ?_, fun _ => rfl⟩⟩
  · refine fixLoop_apart (race_apart h hend hfuel) fun hmeet => ?_
    have := (h.meet_iff (show 0 < tail / 2 by omega)).1 hmeet
    omega
  · refine ⟨walk next (tail + period) head, chain_walk (nth_after hend (by omega)), fun i hi => ?_, fun a => mem_walk h⟩
    exact getElem?_walk next _ head (hi.trans_le (length_walk_le next _ head))

/-- where the cut is made -/
theorem fixLoop_cyclic (hall : ∀ k, nth next head k ≠ none) :
    ∃ m > 0, period ∣ m ∧ tail ≤ m ∧ ∃ rounds, ∀ fuel ≥ rounds, ∀ last, nth next head (m + (tail - 1)) = some last →
      fixLoop next fuel head = some (true, Function.update next last none) := by
  obtain ⟨m, hm, hlow, hdvd, hrace⟩ := race_meets h hall
  refine ⟨m, hm, hdvd, hlow, m + 1, fun fuel hfuel last hlast => fixLoop_met (hrace fuel (by omega)) ?_⟩
  have hfind := findLast_eq h hall hm hdvd (Nat.zero_le (tail - 1)) (show tail - 1 - 0 < fuel by omega)
  rw [hlast] at hfind
  exact hfind

/-- a loop that does not go back to `head`, or has one node -/
theorem repairs_cyclic (hall : ∀ k, nth next head k ≠ none) (hentry : tail = 0 → period = 1) : Repairs next head := by
  have hcycle : HasCycle next head := (hasCycle_iff h).2 hall
  obtain ⟨m, hm, hdvd, hlow, rounds, hfix⟩ := fixLoop_cyclic h hall
  have hpos := h.pos
  obtain ⟨last, hlast⟩ := Option.ne_none_iff_exists'.1 (hall (tail + period - 1))
  have hcut : nth next head (m + (tail - 1)) = some last := by
    rw [← hlast, nth_eq_iff h]
    refine Or.inr ⟨by omega, by omega, ?_⟩
    rcases Nat.eq_zero_or_pos tail with htail | htail
    · rw [hentry htail]
      exact Nat.modEq_one
    · have hperiod : tail + period - 1 = period + (tail - 1) := by omega
      rw [hperiod]
      exact Nat.ModEq.add_right _ (((Nat.modEq_zero_iff_dvd.2 hdvd)).trans (Nat.modEq_zero_iff_dvd.2 dvd_rfl).symm)
  refine ⟨rounds, fun fuel hfuel => ⟨true, _, hfix fuel hfuel last hcut, by simp [hcycle], ?_, fun hnot => absurd hcycle hnot⟩⟩
  have hwalk : tail + period - 1 + 1 = tail + period := by omega
  refine ⟨walk next (tail + period) head, ?_, fun i hi => ?_, fun a => mem_walk h⟩
  · have hnodup := nodup_walk h
    rw [← hwalk] at hnodup ⊢
    exact chain_cut hlast hnodup
  · exact getElem?_walk next _ head (hi.trans_le (length_walk_le next _ head))

/-- a loop that goes back to `head` is cut after `head` -/
theorem cut_at_head (ha : head = some a) (hab : next a = some b) (hcycle : OnCycle next a) (hfixes : Repairs next head) :
    b = a := by
  obtain ⟨rounds, hfixes⟩ := hfixes
  have hzero : tail ≤ 0 := (onCycle_iff h (k := 0) ha).1 hcycle
  obtain rfl := Nat.le_zero.1 hzero
  have hall := (hasCycle_iff h).1 ⟨a, ⟨0, ha⟩, hcycle⟩
  obtain ⟨m, -, hdvd, -, enough, hfix⟩ := fixLoop_cyclic h hall
  have hlast : nth next head (m + (0 - 1)) = some a := by
    rw [← ha]
    exact (nth_eq_iff h (j := 0)).2 (Or.inr ⟨Nat.zero_le _, le_rfl, Nat.modEq_zero_iff_dvd.2 hdvd⟩)
  obtain ⟨fixed, next', hres, -, ⟨l, hchain, -, hmem⟩, -⟩ := hfixes (max rounds enough) (le_max_left _ _)
  rw [hfix _ (le_max_right _ _) a hlast] at hres
  obtain ⟨-, rfl⟩ := Prod.mk.inj (Option.some.inj hres)
  obtain ⟨n, l', rfl, hn, hrest⟩ := HeapChain.of_some (ha ▸ hchain)
  rw [Function.update_self] at hn
  obtain rfl := Option.some.inj hn
  -- after the cut there is only `a`
  obtain rfl : l' = [] := by
    cases l' with
    | nil => rfl
    | cons c l' => cases hrest.1
  have hb : b ∈ reachable next head := ⟨1, by rw [ha]; exact hab⟩
  exact List.mem_singleton.1 (hmem b hb)

end Fix

/-- **When the repair is right.** `fixLoop` does what it should exactly when `head` and `head->next` are not null and `head`
does not lie on a cycle, unless it is its own successor. -/
theorem fixLoop_iff [DecidableEq Addr] (next : Addr → Option Addr) (head : Option Addr) (hfin : (reachable next head).Finite) :
    Repairs next head ↔ ∃ a b, head = some a ∧ next a = some b ∧ (OnCycle next a → b = a) := by
  obtain ⟨tail, period, h⟩ := exists_rho hfin
  constructor
  · intro hfixes
    cases head with
    | none =>
      obtain ⟨rounds, hfixes⟩ := hfixes
      obtain ⟨_, _, hres, -⟩ := hfixes rounds le_rfl
      rw [fixLoop_null] at hres
      cases hres
    | some a =>
      cases hab : next a with
      | some b => exact ⟨a, b, rfl, hab, fun hcycle => cut_at_head h rfl hab hcycle hfixes⟩
      | none =>
        obtain ⟨rounds, hfixes⟩ := hfixes
        obtain ⟨_, _, hres, hcycle, -⟩ := hfixes (rounds + 1) (Nat.le_succ rounds)
        rw [fixLoop_single hab] at hres
        obtain ⟨rfl, -⟩ := Prod.mk.inj (Option.some.inj hres)
        exact absurd hab ((hasCycle_iff h).1 (hcycle.1 rfl) 1)
  · rintro ⟨a, b, rfl, hab, hentry⟩
    by_cases hall : ∀ k, nth next (some a) k ≠ none
    · refine repairs_cyclic h hall fun htail => ?_
      obtain rfl := hentry ((onCycle_iff h (k := 0) rfl).2 htail.le)
      rcases (nth_eq_iff h (i := 1) (j := 0)).1 hab with heq | ⟨-, -, hmod⟩
      · cases heq
      · exact Nat.dvd_one.1 (Nat.modEq_zero_iff_dvd.1 hmod)
    · obtain ⟨k, hk⟩ := not_forall.1 hall
      have hend := nth_tail_of_ends h (not_not.1 hk)
      refine repairs_ending h hend ?_
      by_contra hshort
      have hone := nth_after hend (show tail ≤ 1 by omega)
      cases hab.symm.trans hone

theorem fixLoop_iff_main :
    (reachable mainList (some 0)).Finite ∧ Repairs mainList (some 0) ∧
      (fixLoop mainList 4 (some 0)).map (fun r => (r.1, List.ofFn r.2)) = some (true, [some 1, some 2, some 3, none]) := by
  have hfin : (reachable mainList (some 0)).Finite := Set.toFinite _
  have hback : ∀ a, mainList a ≠ some 0 := by decide
  refine ⟨hfin, (fixLoop_iff mainList (some 0) hfin).2 ⟨0, 1, rfl, rfl, fun hcycle => ?_⟩, by decide⟩
  obtain ⟨m, hm, hcycle⟩ := hcycle
  obtain ⟨m, rfl⟩ := Nat.exists_eq_add_of_le' hm
  rw [nth_succ] at hcycle
  obtain ⟨a, -, ha⟩ := Option.bind_eq_some_iff.1 hcycle
  exact absurd ha (hback a)

/-- numerals of `Fin 2` -/
local instance neZeroTwo : NeZero 2 := ⟨two_ne_zero⟩

/-- two nodes, each the successor of the other -/
def twoNodes : Fin 2 → Option (Fin 2) := ![some 1, some 0]

/-- **The second node is lost.** The loop of two nodes is cut after its first node, and the empty list is dereferenced. -/
theorem second_node_lost :
    (fixLoop twoNodes 2 (some 0)).map (fun r => (r.1, List.ofFn r.2)) = some (true, [none, some 0]) ∧
      ¬ Repairs twoNodes (some 0) ∧ (∀ fuel, fixLoop twoNodes fuel none = none) := by
  refine ⟨by decide, fun hfixes => ?_, fixLoop_null twoNodes⟩
  obtain ⟨tail, period, h⟩ := exists_rho (Set.toFinite (reachable twoNodes (some 0)))
  have hsame := cut_at_head h rfl (show twoNodes 0 = some 1 from rfl) ⟨2, Nat.two_pos, rfl⟩ hfixes
  exact absurd hsame (by decide)

/-! ## The middle -/

/-- what `middleNode` comes to -/
inductive Middle (Addr : Type) where
  /-- the loop goes on after the rounds made -/
  | unfinished
  | nullDereferenced
  | returned (node : Option Addr)
  deriving DecidableEq

/-- the loop of `middleNode` (pureStorage/middleNodeLinkedList.cpp) -/
def halve (next : Addr → Option Addr) : ℕ → Option Addr → Option Addr → Middle Addr
  | 0, _, _ => .unfinished
  | _ + 1, slow, none => .returned slow
  | fuel + 1, slow, some a =>
    match next a with
    | none => .returned slow
    | some b =>
      match load next slow with
      | none => .nullDereferenced
      | some slow => halve next fuel slow (next b)

def middleNode (next : Addr → Option Addr) (fuel : ℕ) (head : Option Addr) : Middle Addr := halve next fuel head head

/-- a round, from the cursors that `k` rounds lead to -/
theorem halve_round (next : Addr → Option Addr) (head : Option Addr) (fuel k : ℕ) :
    halve next (fuel + 1) (nth next head k) (nth next head (2 * k)) =
      if nth next head (2 * k + 1) = none then .returned (nth next head k)
      else halve next fuel (nth next head (k + 1)) (nth next head (2 * (k + 1))) := by
  cases ha : nth next head (2 * k) with
  | none =>
    rw [if_pos (nth_after ha (Nat.le_succ _)), halve]
  | some a =>
    have hnext : nth next head (2 * k + 1) = next a := by rw [nth_succ, ha, Option.bind_some]
    rw [hnext, halve]
    cases hb : next a with
    | none => rw [if_pos rfl]
    | some b =>
      -- `slow` is behind `fast`, which is not null
      have hslow : nth next head k ≠ none := fun hnone => by
        rw [nth_after hnone (Nat.le_mul_of_pos_left k two_pos)] at ha
        cases ha
      have hfast : nth next head (2 * (k + 1)) = next b := by
        rw [show 2 * (k + 1) = 2 * k + 1 + 1 by omega, nth_succ, hnext, hb, Option.bind_some]
      rw [load_nth hslow, hfast, if_neg (Option.some_ne_none b)]

theorem halve_not_null (next : Addr → Option Addr) (head : Option Addr) (fuel k : ℕ) :
    halve next fuel (nth next head k) (nth next head (2 * k)) ≠ .nullDereferenced := by
  induction fuel generalizing k with
  | zero => exact fun h => by cases h
  | succ fuel ih =>
    rw [halve_round]
    split_ifs
    · exact fun h => by cases h
    · exact ih (k + 1)

/-- after `k` rounds in a list of `n` nodes -/
theorem halve_nth (hn : nth next head n = none) (hnodes : ∀ i < n, nth next head i ≠ none) (hk : k ≤ n / 2)
    (hfuel : n / 2 - k < fuel) :
    halve next fuel (nth next head k) (nth next head (2 * k)) = .returned (nth next head (n / 2)) := by
  induction fuel generalizing k with
  | zero => exact absurd hfuel (Nat.not_lt_zero _)
  | succ fuel ih =>
    rw [halve_round]
    rcases Nat.lt_or_ge (2 * k + 1) n with hlt | hge
    · rw [if_neg (hnodes _ hlt)]
      exact ih (by omega) (by omega)
    · rw [if_pos (nth_after hn hge), show n / 2 = k by omega]

/-- the loop ends only if the list does -/
theorem ends_of_halve {r : Option Addr} (h : halve next fuel (nth next head k) (nth next head (2 * k)) = .returned r) :
    ∃ n, nth next head n = none := by
  induction fuel generalizing k with
  | zero => cases h
  | succ fuel ih =>
    rw [halve_round] at h
    split_ifs at h with hend
    · exact ⟨_, hend⟩
    · exact ih h

/-- **The middle.** No null pointer is dereferenced, and the loop ends if and only if the list does: for a list of `n` nodes, with
more than `n / 2` rounds, it returns the node at index `n / 2`, and null for the empty list. -/
theorem middleNode_iff (next : Addr → Option Addr) (head : Option Addr) :
    (∀ fuel, middleNode next fuel head ≠ .nullDereferenced) ∧
      ((∃ fuel r, middleNode next fuel head = .returned r) ↔ ∃ n, nth next head n = none) ∧
      ∀ n fuel, nth next head n = none → (∀ i < n, nth next head i ≠ none) → n / 2 < fuel →
        middleNode next fuel head = .returned (nth next head (n / 2)) := by
  have hmiddle : ∀ n fuel, nth next head n = none → (∀ i < n, nth next head i ≠ none) → n / 2 < fuel →
      middleNode next fuel head = .returned (nth next head (n / 2)) := by
    intro n fuel hn hnodes hfuel
    exact halve_nth hn hnodes (Nat.zero_le _) (by omega)
  refine ⟨fun fuel => halve_not_null next head fuel 0, ⟨?_, ?_⟩, hmiddle⟩
  · rintro ⟨fuel, r, hr⟩
    exact ends_of_halve (k := 0) hr
  · intro hends
    classical
    refine ⟨Nat.find hends / 2 + 1, _, hmiddle (Nat.find hends) _ (Nat.find_spec hends) (fun i hi => ?_) (Nat.lt_succ_self _)⟩
    exact Nat.find_min hends hi

end InterviewPrep.LinkedList.Loop
