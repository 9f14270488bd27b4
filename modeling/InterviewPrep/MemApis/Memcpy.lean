/-
Copying overlapping ranges: mem_apis/memcpy.c.

`robustMemcpy` copies upwards if the destination comes first, and downwards if the source does. An access where there is no memory
and a loop that does not end are `none`; the address 0 is `NULL`. No index gets past `n`, so a `size_t` is a natural number.

- `forward_patched` and `backward_patched`: what has been copied so far is where nothing more is read from;
- `robustMemcpy_copies`: the destination has the old bytes of the source, however the ranges overlap;
- `simpleMemcpy_iff`: what `simple_memcpy`, which always copies upwards, leaves there, and when that is the same.
-/
import InterviewPrep.Core.FlatMemory

namespace InterviewPrep.MemApis.Memcpy

open FlatMemory (Mem Inside store patched)

/-! ## Model -/

/-- `for (size_t i = 0; i < n; i++)` -/
def forward (d s n : ℕ) : ℕ → Mem UInt8 → ℕ → Option (Mem UInt8)
  | 0, _, _ => none
  | fuel + 1, m, i =>
    if i < n then do
      let byte ← m (s + i)
      let m ← store m (d + i) byte
      forward d s n fuel m (i + 1)
    else some m

/-- `for (size_t i = n; i > 0; i--)` -/
def backward (d s : ℕ) : Mem UInt8 → ℕ → Option (Mem UInt8)
  | m, 0 => some m
  | m, i + 1 => do
    let byte ← m (s + i)
    let m ← store m (d + i) byte
    backward d s m i

def robustMemcpy (m : Mem UInt8) (dest src n : ℕ) : Option (Mem UInt8 × ℕ) :=
  if dest = 0 ∨ src = 0 then some (m, 0)
  else do
    let m ← if dest < src then forward dest src n (n + 1) m 0 else if dest > src then backward dest src m n else some m
    some (m, dest)

/-! ## The loops -/

variable {m : Mem UInt8} {d s n i fuel : ℕ}

/-- the byte that belongs to an address of the destination -/
def source (m : Mem UInt8) (d s a : ℕ) : Option UInt8 := m (s + (a - d))

theorem source_add (m : Mem UInt8) (d s i : ℕ) : source m d s (d + i) = m (s + i) := by
  rw [source, Nat.add_sub_cancel_left]

theorem forward_patched (hds : d < s) (hsrc : Inside m s n) (hdest : Inside m d n) (hi : i ≤ n) (hfuel : n - i < fuel) :
    forward d s n fuel (patched m d (d + i) (source m d s)) i = some (patched m d (d + n) (source m d s)) := by
  induction fuel generalizing i with
  | zero => omega
  | succ fuel ih =>
    rw [forward]
    rcases hi.lt_or_eq with hlt | rfl
    · obtain ⟨byte, hbyte⟩ := Option.isSome_iff_exists.1 (hsrc i hlt)
      -- the source is still what it was: everything below `d + i` only has been written
      rw [if_pos hlt, FlatMemory.patched_outside (Or.inr (by omega)), hbyte, Option.bind_eq_bind, Option.bind_some,
        FlatMemory.store_patched_right (Nat.le_add_right d i) (hdest i hlt) ((source_add m d s i).trans hbyte),
        Option.bind_eq_bind, Option.bind_some, add_assoc]
      exact ih hlt (by omega)
    · rw [if_neg (lt_irrefl _)]

theorem backward_patched (hsd : s < d) (hsrc : Inside m s n) (hdest : Inside m d n) (hi : i ≤ n) :
    backward d s (patched m (d + i) (d + n) (source m d s)) i = some (patched m d (d + n) (source m d s)) := by
  induction i with
  | zero => rfl
  | succ i ih =>
    obtain ⟨byte, hbyte⟩ := Option.isSome_iff_exists.1 (hsrc i hi)
    rw [backward, FlatMemory.patched_outside (Or.inl (by omega)), hbyte, Option.bind_eq_bind, Option.bind_some, ← add_assoc,
      FlatMemory.store_patched_left (by omega) (hdest i hi) ((source_add m d s i).trans hbyte), Option.bind_eq_bind,
      Option.bind_some]
    exact ih (Nat.le_of_succ_le hi)

theorem robustMemcpy_eq (hdest₀ : d ≠ 0) (hsrc₀ : s ≠ 0) (hdest : Inside m d n) (hsrc : Inside m s n) :
    robustMemcpy m d s n = some (patched m d (d + n) (source m d s), d) := by
  rw [robustMemcpy, if_neg (not_or.2 ⟨hdest₀, hsrc₀⟩)]
  rcases lt_trichotomy d s with hlt | rfl | hgt
  · have hloop := forward_patched hlt hsrc hdest (Nat.zero_le n) (Nat.lt_succ_self (n - 0))
    rw [Nat.add_zero, FlatMemory.patched_empty] at hloop
    have hloop' : forward d s n (n + 1) m 0 = _ := hloop
    rw [if_pos hlt, hloop', Option.bind_eq_bind, Option.bind_some]
  · have hsame : patched m d (d + n) (source m d d) = m := by
      funext a
      rw [patched]
      split_ifs with hin
      · rw [source, Nat.add_sub_cancel' hin.1]
      · rfl
    rw [if_neg (lt_irrefl d), if_neg (lt_irrefl d), hsame, Option.bind_eq_bind, Option.bind_some]
  · have hloop := backward_patched hgt hsrc hdest le_rfl
    rw [FlatMemory.patched_empty] at hloop
    rw [if_neg hgt.not_gt, if_pos hgt, hloop, Option.bind_eq_bind, Option.bind_some]

/-- **Copying.** Whether the ranges overlap or not, the destination has the old bytes of the source, and nothing else has
changed. -/
theorem robustMemcpy_copies (m : Mem UInt8) (dest src n : ℕ) (hdest₀ : dest ≠ 0) (hsrc₀ : src ≠ 0) (hdest : Inside m dest n)
    (hsrc : Inside m src n) :
    ∃ m', robustMemcpy m dest src n = some (m', dest) ∧ (∀ i < n, m' (dest + i) = m (src + i)) ∧
      ∀ a, a < dest ∨ dest + n ≤ a → m' a = m a := by
  refine ⟨_, robustMemcpy_eq hdest₀ hsrc₀ hdest hsrc, fun i hi => ?_, fun a ha => FlatMemory.patched_outside ha⟩
  rw [FlatMemory.patched_inside (Nat.le_add_right dest i) (by omega), source_add]

theorem robustMemcpy_overlap :
    ∃ m', robustMemcpy (fun a => if a < 20 then some (UInt8.ofNat a) else none) 6 4 5 = some (m', 6) ∧
      (∀ i < 5, m' (6 + i) = if 4 + i < 20 then some (UInt8.ofNat (4 + i)) else none) ∧
      ∀ a, a < 6 ∨ 6 + 5 ≤ a → m' a = if a < 20 then some (UInt8.ofNat a) else none :=
  robustMemcpy_copies _ 6 4 5 (by decide) (by decide) (by decide) (by decide)

/-! ## Upwards only -/

def simpleMemcpy (m : Mem UInt8) (dest src n : ℕ) : Option (Mem UInt8 × ℕ) :=
  if dest = 0 ∨ src = 0 then some (m, 0)
  else do
    let m ← forward dest src n (n + 1) m 0
    some (m, dest)

/-- what is read from has been written already, where the source comes first; for `d ≤ s` the remainder is the number itself -/
def repeated (m : Mem UInt8) (d s a : ℕ) : Option UInt8 := m (s + (a - d) % (d - s))

theorem repeated_add (m : Mem UInt8) (d s i : ℕ) : repeated m d s (d + i) = m (s + i % (d - s)) := by
  rw [repeated, Nat.add_sub_cancel_left]

/-- what the loop finds in place of the source -/
theorem patched_repeated (m : Mem UInt8) (d s i : ℕ) :
    patched m d (d + i) (repeated m d s) (s + i) = m (s + i % (d - s)) := by
  rcases Nat.lt_or_ge (s + i) d with hlt | hge
  · rw [FlatMemory.patched_outside (Or.inl hlt), Nat.mod_eq_of_lt (by omega)]
  · rcases Nat.lt_or_ge s d with hsd | hds
    · rw [FlatMemory.patched_inside hge (by omega), repeated, show s + i - d = i - (d - s) by omega,
        ← Nat.mod_eq_sub_mod (by omega)]
    · rw [FlatMemory.patched_outside (Or.inr (by omega)), Nat.sub_eq_zero_of_le hds, Nat.mod_zero]

theorem forward_repeated (hsrc : Inside m s n) (hdest : Inside m d n) (hi : i ≤ n) (hfuel : n - i < fuel) :
    forward d s n fuel (patched m d (d + i) (repeated m d s)) i = some (patched m d (d + n) (repeated m d s)) := by
  induction fuel generalizing i with
  | zero => omega
  | succ fuel ih =>
    rw [forward]
    rcases hi.lt_or_eq with hlt | rfl
    · obtain ⟨byte, hbyte⟩ := Option.isSome_iff_exists.1 (hsrc (i % (d - s)) ((Nat.mod_le i _).trans_lt hlt))
      rw [if_pos hlt, patched_repeated, hbyte, Option.bind_eq_bind, Option.bind_some,
        FlatMemory.store_patched_right (Nat.le_add_right d i) (hdest i hlt) ((repeated_add m d s i).trans hbyte),
        Option.bind_eq_bind, Option.bind_some, add_assoc]
      exact ih hlt (by omega)
    · rw [if_neg (lt_irrefl _)]

/-- **Copying upwards.** Byte `i` of the destination gets the old byte `i` of the source, counted modulo the distance if the
source comes first; nothing else changes. So the destination has the old bytes of the source if and only if it does not come
after the source, or the source repeats itself after that distance. -/
theorem simpleMemcpy_iff (m : Mem UInt8) (dest src n : ℕ) (hdest₀ : dest ≠ 0) (hsrc₀ : src ≠ 0) (hdest : Inside m dest n)
    (hsrc : Inside m src n) :
    ∃ m', simpleMemcpy m dest src n = some (m', dest) ∧ (∀ i < n, m' (dest + i) = m (src + i % (dest - src))) ∧
      (∀ a, a < dest ∨ dest + n ≤ a → m' a = m a) ∧
      ((∀ i < n, m' (dest + i) = m (src + i)) ↔
        dest ≤ src ∨ ∀ i, i + (dest - src) < n → m (src + (i + (dest - src))) = m (src + i)) := by
  have hloop := forward_repeated hsrc hdest (Nat.zero_le n) (show n - 0 < n + 1 by omega)
  rw [Nat.add_zero dest, FlatMemory.patched_empty] at hloop
  have hbytes : ∀ i < n, patched m dest (dest + n) (repeated m dest src) (dest + i) = m (src + i % (dest - src)) := fun i hi => by
    rw [FlatMemory.patched_inside (Nat.le_add_right dest i) (by omega), repeated_add]
  refine ⟨_, ?_, hbytes, fun a ha => FlatMemory.patched_outside ha, ?_⟩
  · rw [simpleMemcpy, if_neg (not_or.2 ⟨hdest₀, hsrc₀⟩), hloop, Option.bind_eq_bind, Option.bind_some]
  · rcases Nat.lt_or_ge src dest with hlt | hge
    · rw [or_iff_right (by omega)]
      constructor
      · intro hcopied i hi
        rw [← hcopied _ hi, hbytes _ hi, Nat.add_mod_right, ← hbytes i (by omega), hcopied i (by omega)]
      · intro hrepeats i hi
        rw [hbytes i hi]
        induction i using Nat.strong_induction_on with
        | h i ih =>
          rcases Nat.lt_or_ge i (dest - src) with hfirst | hlater
          · rw [Nat.mod_eq_of_lt hfirst]
          · obtain ⟨j, rfl⟩ := Nat.exists_eq_add_of_le' hlater
            rw [Nat.add_mod_right, ih j (by omega) (by omega), hrepeats j hi]
    · refine iff_of_true (fun i hi => ?_) (Or.inl hge)
      rw [hbytes i hi, Nat.sub_eq_zero_of_le hge, Nat.mod_zero]

/-- two bytes are copied over and over -/
theorem simpleMemcpy_overlap :
    ∃ m', simpleMemcpy (fun a => if a < 20 then some (UInt8.ofNat a) else none) 6 4 5 = some (m', 6) ∧
      ∀ i < 5, m' (6 + i) = if 4 + i % (6 - 4) < 20 then some (UInt8.ofNat (4 + i % (6 - 4))) else none := by
  obtain ⟨m', hrun, hbytes, -⟩ := simpleMemcpy_iff (fun a => if a < 20 then some (UInt8.ofNat a) else none) 6 4 5
    (by decide) (by decide) (by decide) (by decide)
  exact ⟨m', hrun, hbytes⟩

end InterviewPrep.MemApis.Memcpy
