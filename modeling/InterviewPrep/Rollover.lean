/-
A counter that rolls over: amazon/emergingDevices/rolloverTimeStamp.cpp.

`processTimestamp` stores the values of a counter modulo `RANGE` with the rollovers it has noticed. The state are the three
globals. The multiplier and what is stored are `long long`s, and a call may stop in two ways: a value does not fit (`overflow`),
or `storage` cannot grow, and `push_back` throws and leaves it as it was (`badAlloc`). How many elements there is memory for is
the allocator's: `room`.

- `rolled_iff`: with less than `RANGE` between two times, the counter gets smaller exactly if there is a multiple between them;
- `processTimestamp_step`: one call, `after` what a run of them leaves in the globals;
- `unwrapped_stored`: every run stores the differences of the true times to the last multiple before the first, until `storage`
  is full. No value overflows: it takes more than 2 ^ 58 calls to get to 2 ^ 63, and their values do not fit in 2 ^ 61 bytes.
-/
import InterviewPrep.Core.Numeral

namespace InterviewPrep.Rollover

open Numeral (long long_of_small)

/-! ## Model -/

structure Globals where
  storage : List ℤ
  previous : ℤ
  multiplier : ℤ
deriving DecidableEq

def initial : Globals := ⟨[], -1, 0⟩

def RANGE : ℤ := 30

/-- how a call stops, if it does not return -/
inductive Stop where
  | overflow
  | badAlloc (g : Globals)
deriving DecidableEq

/-- arithmetic in `long long` -/
def checked (value : ℤ) : Except Stop ℤ := (long value).elim (.error .overflow) .ok

def pushBack (room : ℕ) (g : Globals) (value : ℤ) : Except Stop Globals :=
  if g.storage.length < room then .ok { g with storage := g.storage ++ [value] } else .error (.badAlloc g)

/-- the test for a rollover -/
def detect (g : Globals) (ts : ℤ) : Except Stop Globals :=
  if g.previous ≠ -1 ∧ ts < g.previous then (checked (g.multiplier + 1)).map fun m => { g with multiplier := m } else .ok g

/-- what follows it -/
def store (room : ℕ) (g : Globals) (ts : ℤ) : Except Stop Globals := do
  let product ← checked (g.multiplier * RANGE)
  let unwrapped ← checked (ts + product)
  let g ← pushBack room g unwrapped
  pure { g with previous := ts }

def processTimestamp (room : ℕ) (g : Globals) (ts : ℤ) : Except Stop Globals := do
  let g ← detect g ts
  store room g ts

/-- the calls one after the other, up to one that stops -/
def run (room : ℕ) : Globals → List ℤ → Except Stop Globals := List.foldlM (processTimestamp room)

/-! ## One call -/

/-- what the counter shows -/
def counter (t : ℕ) : ℤ := (t : ℤ) % RANGE

/-- the time since the last multiple of `RANGE` before `t₀` -/
def unwrapped (t₀ t : ℕ) : ℤ := t - RANGE * (t₀ / RANGE)

/-- the rollovers since `t₀` -/
def rollovers (t₀ t : ℕ) : ℤ := t / RANGE - t₀ / RANGE

variable {t₀ t t' : ℕ} {storage : List ℤ}

theorem counter_nonneg (t : ℕ) : 0 ≤ counter t := Int.emod_nonneg _ (by decide)

theorem unwrapped_eq (t₀ t : ℕ) : counter t + rollovers t₀ t * RANGE = unwrapped t₀ t := by
  unfold counter rollovers unwrapped RANGE
  omega

/-- the counter gets smaller when a multiple of `RANGE` is passed -/
theorem rolled_iff (t₀ : ℕ) (hle : t ≤ t') (hgap : (t' : ℤ) < t + RANGE) :
    rollovers t₀ t' = if counter t' < counter t then rollovers t₀ t + 1 else rollovers t₀ t := by
  unfold rollovers counter RANGE at *
  split_ifs <;> omega

theorem checked_of_small {value : ℤ} (hpos : 0 ≤ value) (hfits : value < 2 ^ 63) : checked value = .ok value := by
  rw [checked, long_of_small (by omega) hfits]
  rfl

theorem store_eq {room : ℕ} {g : Globals} {ts : ℤ} (hmultiplier : 0 ≤ g.multiplier) (hts : 0 ≤ ts)
    (hfits : ts + g.multiplier * RANGE < 2 ^ 63) :
    store room g ts =
      if g.storage.length < room then .ok ⟨g.storage ++ [ts + g.multiplier * RANGE], ts, g.multiplier⟩
      else .error (.badAlloc g) := by
  have hproduct : 0 ≤ g.multiplier * RANGE := mul_nonneg hmultiplier (by decide)
  rw [store, checked_of_small hproduct (by omega)]
  change ((checked (ts + g.multiplier * RANGE)).bind fun u => (pushBack room g u).bind fun g => .ok { g with previous := ts }) = _
  rw [checked_of_small (by omega) hfits]
  change (pushBack room g (ts + g.multiplier * RANGE)).bind _ = _
  unfold pushBack
  split_ifs <;> rfl

theorem processTimestamp_eq {room : ℕ} {g g' : Globals} {ts : ℤ} (h : detect g ts = .ok g') :
    processTimestamp room g ts = store room g' ts := by
  rw [processTimestamp, h]
  rfl

/-- the state after a call at time `t` -/
def after (t₀ t : ℕ) (storage : List ℤ) : Globals := ⟨storage, counter t, rollovers t₀ t⟩

theorem detect_after (hle : t ≤ t') (hgap : (t' : ℤ) < t + RANGE) (hpos : 0 ≤ rollovers t₀ t')
    (hfits : rollovers t₀ t' < 2 ^ 63) :
    detect (after t₀ t storage) (counter t') = .ok ⟨storage, counter t, rollovers t₀ t'⟩ := by
  have hprevious : counter t ≠ -1 := fun heq => absurd (counter_nonneg t) (by omega)
  have hrolled := rolled_iff t₀ hle hgap
  rw [detect, after]
  dsimp only
  by_cases hless : counter t' < counter t
  · rw [if_pos hless] at hrolled
    rw [if_pos ⟨hprevious, hless⟩, ← hrolled, checked_of_small hpos hfits]
    rfl
  · rw [if_neg hless] at hrolled
    rw [if_neg fun hboth => hless hboth.2, ← hrolled]

theorem processTimestamp_step (room : ℕ) (storage : List ℤ) (hstart : t₀ ≤ t) (hle : t ≤ t')
    (hgap : (t' : ℤ) < t + RANGE) (hfits : unwrapped t₀ t' < 2 ^ 63) :
    processTimestamp room (after t₀ t storage) (counter t') =
      if storage.length < room then .ok (after t₀ t' (storage ++ [unwrapped t₀ t']))
      else .error (.badAlloc ⟨storage, counter t, rollovers t₀ t'⟩) := by
  have hcounter := counter_nonneg t'
  have hpos : 0 ≤ rollovers t₀ t' := by
    unfold rollovers RANGE
    omega
  have hproduct : rollovers t₀ t' ≤ rollovers t₀ t' * RANGE := le_mul_of_one_le_right hpos (by decide)
  rw [← unwrapped_eq] at hfits ⊢
  rw [processTimestamp_eq (detect_after hle hgap hpos (by omega))]
  exact store_eq hpos hcounter hfits

/-- the first call never meets a rollover -/
theorem processTimestamp_initial (room : ℕ) (t₀ : ℕ) :
    processTimestamp room initial (counter t₀) =
      if 0 < room then .ok (after t₀ t₀ [unwrapped t₀ t₀]) else .error (.badAlloc initial) := by
  have hcounter : counter t₀ < RANGE := Int.emod_lt_of_pos _ (by decide)
  have hmultiplier : initial.multiplier = 0 := rfl
  have hfits : counter t₀ + initial.multiplier * RANGE < 2 ^ 63 := by
    rw [hmultiplier, zero_mul, add_zero]
    exact hcounter.trans (by decide)
  have hzero : rollovers t₀ t₀ = 0 := sub_self _
  have hdetect : detect initial (counter t₀) = .ok initial := if_neg fun hboth => hboth.1 rfl
  rw [processTimestamp_eq hdetect, store_eq hmultiplier.ge (counter_nonneg t₀) hfits, after, ← unwrapped_eq, hzero]
  rfl

/-! ## A run -/

/-- consecutive times less than `RANGE` apart -/
def Follows (t t' : ℕ) : Prop := t ≤ t' ∧ (t' : ℤ) < t + RANGE

instance : DecidableRel Follows := fun _ _ => inferInstanceAs (Decidable (_ ∧ _))

/-- a value is at most `29` for each of the values stored so far -/
theorem unwrapped_le (hle : unwrapped t₀ t ≤ 29 * storage.length) (hgap : (t' : ℤ) < t + RANGE) :
    unwrapped t₀ t' ≤ 29 * (storage ++ [unwrapped t₀ t']).length := by
  rw [List.length_append, List.length_singleton]
  unfold unwrapped RANGE at *
  push_cast
  omega

theorem run_after {room : ℕ} (hroom : 8 * room ≤ 2 ^ 61) {ts : List ℕ} (hstart : t₀ ≤ t)
    (hbound : unwrapped t₀ t ≤ 29 * storage.length) (hlength : storage.length ≤ room) (hchain : (t :: ts).IsChain Follows) :
    ∃ g, run room (after t₀ t storage) (ts.map counter) =
        (if storage.length + ts.length ≤ room then .ok g else .error (.badAlloc g)) ∧
      g.storage = storage ++ (ts.take (room - storage.length)).map (unwrapped t₀) := by
  induction ts generalizing t storage with
  | nil =>
    refine ⟨after t₀ t storage, ?_, ?_⟩
    · rw [List.length_nil, Nat.add_zero, if_pos hlength]
      rfl
    · rw [List.take_nil, List.map_nil, List.append_nil]
      rfl
  | cons u ts ih =>
    obtain ⟨⟨hle, hgap⟩, hrest⟩ := List.isChain_cons_cons.1 hchain
    have hnext := unwrapped_le hbound hgap
    have hcount : (storage ++ [unwrapped t₀ u]).length = storage.length + 1 := by
      rw [List.length_append, List.length_singleton]
    have hfits : unwrapped t₀ u < 2 ^ 63 := by
      rw [hcount] at hnext
      push_cast at hnext
      omega
    have hstep := processTimestamp_step room storage hstart hle hgap hfits
    rw [List.map_cons, run, List.foldlM_cons, hstep]
    by_cases hfull : storage.length < room
    · obtain ⟨g, hrun, hstorage⟩ := ih (hstart.trans hle) hnext (by omega) hrest
      refine ⟨g, ?_, ?_⟩
      · rw [if_pos hfull]
        rw [hcount, Nat.add_right_comm, Nat.add_assoc] at hrun
        exact hrun
      · obtain ⟨n, hn⟩ : ∃ n, room - storage.length = n + 1 := ⟨room - storage.length - 1, by omega⟩
        rw [hcount, show room - (storage.length + 1) = n by omega] at hstorage
        rw [hstorage, hn, List.take_succ_cons, List.map_cons, List.append_assoc, List.singleton_append]
    · refine ⟨⟨storage, counter t, rollovers t₀ u⟩, ?_, ?_⟩
      · rw [if_neg hfull, List.length_cons, if_neg (by omega)]
        rfl
      · rw [show room - storage.length = 0 by omega, List.take_zero, List.map_nil, List.append_nil]

theorem run_initial {room : ℕ} (hroom : 8 * room ≤ 2 ^ 61) {ts : List ℕ} (hchain : (t₀ :: ts).IsChain Follows) :
    ∃ g, run room initial ((t₀ :: ts).map counter) =
        (if (t₀ :: ts).length ≤ room then .ok g else .error (.badAlloc g)) ∧
      g.storage = ((t₀ :: ts).take room).map (unwrapped t₀) := by
  have hfirst : unwrapped t₀ t₀ ≤ 29 * [unwrapped t₀ t₀].length := by
    rw [List.length_singleton]
    unfold unwrapped RANGE
    omega
  rw [List.map_cons, run, List.foldlM_cons, processTimestamp_initial, List.length_cons]
  cases room with
  | zero =>
    refine ⟨initial, ?_, rfl⟩
    rw [if_neg (Nat.lt_irrefl 0), if_neg (Nat.not_succ_le_zero ts.length)]
    rfl
  | succ room =>
    obtain ⟨g, hrun, hstorage⟩ := run_after hroom le_rfl hfirst (Nat.succ_le_succ (Nat.zero_le room)) hchain
    refine ⟨g, ?_, ?_⟩
    · rw [if_pos (Nat.succ_pos room)]
      rw [List.length_singleton, Nat.add_comm 1] at hrun
      exact hrun
    · rw [hstorage, List.length_singleton, Nat.add_sub_cancel, List.take_succ_cons, List.map_cons, List.singleton_append]

theorem unwrapped_sub (t₀ t t' : ℕ) : unwrapped t₀ t' - unwrapped t₀ t = t' - t := by
  unfold unwrapped
  ring

/-- **Unwrapped.** Whatever room the allocator has, below 2 ^ 61 bytes: for true times with gaps below `RANGE`, the `i`-th value
stored is `t i - 30 * (t 0 / 30)`. There is one for every time if there is room, and otherwise as many as there is room for, and
then `push_back` throws; nothing overflows. Differences of true times are kept. -/
theorem unwrapped_stored (room : ℕ) (hroom : 8 * room ≤ 2 ^ 61) (t₀ : ℕ) (ts : List ℕ)
    (hchain : (t₀ :: ts).IsChain fun t t' => t ≤ t' ∧ t' < t + 30) :
    ∃ g, run room initial ((t₀ :: ts).map fun t : ℕ => (t : ℤ) % RANGE) =
        (if (t₀ :: ts).length ≤ room then .ok g else .error (.badAlloc g)) ∧
      g.storage = ((t₀ :: ts).take room).map (fun t : ℕ => (t : ℤ) - RANGE * (t₀ / RANGE)) ∧
      ∀ i j (hi : i < (t₀ :: ts).length) (hj : j < (t₀ :: ts).length), i < room → j < room →
        ∃ u v, g.storage[i]? = some u ∧ g.storage[j]? = some v ∧ v - u = ((t₀ :: ts)[j] : ℤ) - (t₀ :: ts)[i] := by
  have hfollows : (t₀ :: ts).IsChain Follows :=
    hchain.imp fun t t' h => ⟨h.1, by
      have hgap := h.2
      unfold RANGE
      omega⟩
  obtain ⟨g, hrun, hstorage⟩ := run_initial hroom hfollows
  refine ⟨g, hrun, hstorage, fun i j hi hj hir hjr => ⟨_, _, ?_, ?_, unwrapped_sub t₀ (t₀ :: ts)[i] (t₀ :: ts)[j]⟩⟩
  · rw [hstorage, List.getElem?_map, List.getElem?_take_of_lt hir, List.getElem?_eq_getElem hi, Option.map_some]
  · rw [hstorage, List.getElem?_map, List.getElem?_take_of_lt hjr, List.getElem?_eq_getElem hj, Option.map_some]

/-- two rollovers; with room for four values, the fifth is not stored -/
theorem unwrapped_stored_twice :
    (∃ g, run (2 ^ 58) initial ([58, 59, 61, 61, 90].map fun t : ℕ => (t : ℤ) % RANGE) = .ok g ∧
      g.storage = [28, 29, 31, 31, 60]) ∧
    ∃ g, run 4 initial ([58, 59, 61, 61, 90].map fun t : ℕ => (t : ℤ) % RANGE) = .error (.badAlloc g) ∧
      g.storage = [28, 29, 31, 31] := by
  obtain ⟨g, hrun, hstorage, -⟩ := unwrapped_stored (2 ^ 58) (by norm_num) 58 [59, 61, 61, 90] (by decide)
  obtain ⟨g', hrun', hstorage', -⟩ := unwrapped_stored 4 (by norm_num) 58 [59, 61, 61, 90] (by decide)
  exact ⟨⟨g, hrun.trans (if_pos (by norm_num)), hstorage.trans (by decide)⟩, g', hrun', hstorage'⟩

end InterviewPrep.Rollover
