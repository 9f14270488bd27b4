/-
Filling memory by words: mem_apis/memset.c, where `uintptr_t` has 64 bits.

`memsetFast` fills single bytes up to an aligned address, then words, then the bytes that are left. An access where there is no
memory and a loop that does not end are `none`. The addresses of the words that are written are kept in a list besides.

- `headLoop_patched`, `wordLoop_patched`, `tailLoop_patched`: each of the loops goes on where the one before it ended, and the
  bytes below are filled;
- `memsets_agree`: in the end the memory is the one that `memsetNaive` leaves, and the words were aligned and in the range.
-/
import InterviewPrep.Core.FlatMemory
import InterviewPrep.Core.Numeral

namespace InterviewPrep.MemApis.Memset

open FlatMemory (Mem Inside store storeWord littleEndian patched)

/-! ## Model -/

/-- `for (size_t i = 0; i < n; i++)` -/
def naiveLoop (p : ℕ) (val : ℤ) (n : UInt64) : ℕ → Mem UInt8 → UInt64 → Option (Mem UInt8)
  | 0, _, _ => none
  | fuel + 1, m, i =>
    if i < n then do
      let m ← store m (p + i.toNat) (UInt8.ofInt val)
      naiveLoop p val n fuel m (i + 1)
    else some m

def memsetNaive (m : Mem UInt8) (dst : ℕ) (val : ℤ) (n : UInt64) : Option (Mem UInt8 × ℕ) := do
  let m ← naiveLoop dst val n (n.toNat + 1) m 0
  some (m, dst)

/-- `sizeof(uintptr_t)` -/
def sizeofWord : ℕ := 8

/-- the word with `v` in every byte -/
def pattern (v : UInt8) : UInt64 :=
  let pattern := v.toUInt64
  let pattern := pattern ||| pattern <<< 8
  let pattern := pattern ||| pattern <<< 16
  pattern ||| pattern <<< 32

/-- `while (n && ((uintptr_t)p & (sizeof(uintptr_t) - 1)))` -/
def headLoop (v : UInt8) : ℕ → Mem UInt8 → ℕ → UInt64 → Option (Mem UInt8 × ℕ × UInt64)
  | 0, _, _, _ => none
  | fuel + 1, m, p, n =>
    if n ≠ 0 ∧ p &&& (sizeofWord - 1) ≠ 0 then do
      let m ← store m p v
      headLoop v fuel m (p + 1) (n - 1)
    else some (m, p, n)

/-- `while (n >= sizeof(uintptr_t))`, with the addresses that are written -/
def wordLoop (w : UInt64) : ℕ → Mem UInt8 → ℕ → UInt64 → List ℕ → Option (Mem UInt8 × ℕ × UInt64 × List ℕ)
  | 0, _, _, _, _ => none
  | fuel + 1, m, wp, n, words =>
    if n ≥ UInt64.ofNat sizeofWord then do
      let m ← storeWord m wp w
      wordLoop w fuel m (wp + sizeofWord) (n - UInt64.ofNat sizeofWord) (words ++ [wp])
    else some (m, wp, n, words)

/-- `while (n--)`, which counts below 0 when it ends -/
def tailLoop (v : UInt8) : ℕ → Mem UInt8 → ℕ → UInt64 → Option (Mem UInt8 × UInt64)
  | 0, _, _, _ => none
  | fuel + 1, m, p, n =>
    if n ≠ 0 then do
      let m ← store m p v
      tailLoop v fuel m (p + 1) (n - 1)
    else some (m, n - 1)

def memsetFast (m : Mem UInt8) (dst : ℕ) (val : ℤ) (n : UInt64) : Option (Mem UInt8 × ℕ × List ℕ) := do
  let v := UInt8.ofInt val
  let head ← headLoop v (n.toNat + 1) m dst n
  let words ← wordLoop (pattern v) (n.toNat + 1) head.1 head.2.1 head.2.2 []
  let tail ← tailLoop v (n.toNat + 1) words.1 words.2.1 words.2.2.1
  some (tail.1, dst, words.2.2.2)

/-! ## The loops -/

theorem littleEndian_pattern (v : UInt8) : littleEndian (pattern v) = List.replicate 8 v :=
  Numeral.forall_byte (P := fun v => littleEndian (pattern v) = List.replicate 8 v) (by decide +kernel) v

theorem toNat_sub_one {n : UInt64} (h : n ≠ 0) : (n - 1).toNat + 1 = n.toNat := by
  have hpos : n.toNat ≠ 0 := fun hzero => h (UInt64.toNat_inj.1 hzero)
  have hle : (1 : UInt64) ≤ n := UInt64.le_iff_toNat_le.2 (Nat.one_le_iff_ne_zero.2 hpos)
  rw [UInt64.toNat_sub_of_le n 1 hle]
  exact Nat.sub_add_cancel (Nat.one_le_iff_ne_zero.2 hpos)

theorem aligned_iff (p : ℕ) : p &&& (sizeofWord - 1) = 0 ↔ 8 ∣ p := by
  rw [Nat.dvd_iff_mod_eq_zero]
  exact iff_of_eq (congrArg (· = 0) (Nat.and_two_pow_sub_one_eq_mod p 3))

/-- `n` bytes from `p` on are left of the range -/
structure Filling (m : Mem UInt8) (dst last p : ℕ) (n : UInt64) : Prop where
  inside : ∀ a, dst ≤ a → a < last → (m a).isSome
  le : dst ≤ p
  left : p + n.toNat = last

variable {m : Mem UInt8} {dst last p : ℕ} {n : UInt64} {v : UInt8} {fuel : ℕ}

theorem Filling.next (h : Filling m dst last p n) (hn : n ≠ 0) : Filling m dst last (p + 1) (n - 1) := by
  have hsub := toNat_sub_one hn
  have hleft := h.left
  exact ⟨h.inside, Nat.le_succ_of_le h.le, by omega⟩

/-- one byte more -/
theorem Filling.store (h : Filling m dst last p n) (hn : n ≠ 0) :
    store (patched m dst p fun _ => some v) p v = some (patched m dst (p + 1) fun _ => some v) := by
  have hsub := toNat_sub_one hn
  have hleft := h.left
  exact FlatMemory.store_patched_right h.le (h.inside p h.le (by omega)) rfl

theorem headLoop_patched (v : UInt8) (h : Filling m dst last p n) (hfuel : n.toNat < fuel) :
    ∃ p' n', headLoop v fuel (patched m dst p fun _ => some v) p n = some (patched m dst p' fun _ => some v, p', n') ∧
      Filling m dst last p' n' ∧ n'.toNat ≤ n.toNat ∧ (n' ≠ 0 → 8 ∣ p') := by
  induction fuel generalizing p n with
  | zero => omega
  | succ fuel ih =>
    rw [headLoop]
    by_cases hmore : n ≠ 0 ∧ p &&& (sizeofWord - 1) ≠ 0
    · have hsub := toNat_sub_one hmore.1
      obtain ⟨p', n', hloop, hrest, hle, haligned⟩ := ih (h.next hmore.1) (by omega)
      rw [if_pos hmore, h.store hmore.1, Option.bind_eq_bind, Option.bind_some]
      exact ⟨p', n', hloop, hrest, by omega, haligned⟩
    · rw [if_neg hmore]
      refine ⟨p, n, rfl, h, le_rfl, fun hn => (aligned_iff p).1 ?_⟩
      by_contra hunaligned
      exact hmore ⟨hn, hunaligned⟩

/-- eight bytes more -/
theorem Filling.storeWord (h : Filling m dst last p n) (hn : 8 ≤ n.toNat) :
    storeWord (patched m dst p fun _ => some v) p (pattern v) = some (patched m dst (p + 8) fun _ => some v) := by
  have hleft := h.left
  rw [FlatMemory.storeWord, littleEndian_pattern]
  refine FlatMemory.storeAll_patched h.le (fun i hi => ?_) fun i hi => ?_
  · rw [List.length_replicate] at hi
    have hle := h.le
    exact h.inside (p + i) (by omega) (by omega)
  · rw [List.length_replicate] at hi
    rw [List.getElem?_replicate_of_lt hi]

theorem wordLoop_patched (v : UInt8) (words : List ℕ) (h : Filling m dst last p n) (hfuel : n.toNat < fuel)
    (haligned : n ≠ 0 → 8 ∣ p) (hwords : ∀ a ∈ words, 8 ∣ a ∧ dst ≤ a ∧ a + 8 ≤ last) :
    ∃ p' n' words', wordLoop (pattern v) fuel (patched m dst p fun _ => some v) p n words =
        some (patched m dst p' fun _ => some v, p', n', words') ∧
      Filling m dst last p' n' ∧ n'.toNat ≤ n.toNat ∧ ∀ a ∈ words', 8 ∣ a ∧ dst ≤ a ∧ a + 8 ≤ last := by
  induction fuel generalizing p n words with
  | zero => omega
  | succ fuel ih =>
    rw [wordLoop]
    by_cases hmore : n ≥ UInt64.ofNat sizeofWord
    · have hn : 8 ≤ n.toNat := UInt64.le_iff_toNat_le.1 hmore
      have hsub : (n - UInt64.ofNat sizeofWord).toNat = n.toNat - 8 := UInt64.toNat_sub_of_le _ _ hmore
      have hne : n ≠ 0 := by
        rintro rfl
        exact absurd hn (by decide)
      have hleft := h.left
      have hnext : Filling m dst last (p + 8) (n - UInt64.ofNat sizeofWord) := ⟨h.inside, Nat.le_add_right_of_le h.le, by omega⟩
      rw [if_pos hmore, h.storeWord hn, Option.bind_eq_bind, Option.bind_some]
      obtain ⟨p', n', words', hloop, hrest, hle, hall⟩ := ih (words ++ [p]) hnext (by omega)
        (fun _ => (Nat.dvd_add_right (haligned hne)).2 (dvd_refl 8)) fun a ha => by
          rcases List.mem_append.1 ha with hold | hnew
          · exact hwords a hold
          · obtain rfl := List.mem_singleton.1 hnew
            exact ⟨haligned hne, h.le, by omega⟩
      exact ⟨p', n', words', hloop, hrest, by omega, hall⟩
    · rw [if_neg hmore]
      exact ⟨p, n, words, rfl, h, le_rfl, hwords⟩

theorem tailLoop_patched (v : UInt8) (h : Filling m dst last p n) (hfuel : n.toNat < fuel) :
    ∃ n', tailLoop v fuel (patched m dst p fun _ => some v) p n = some (patched m dst last fun _ => some v, n') := by
  induction fuel generalizing p n with
  | zero => omega
  | succ fuel ih =>
    rw [tailLoop]
    by_cases hn : n = 0
    · have hlast : p = last := by
        rw [← h.left, hn]
        rfl
      rw [if_neg (not_not.2 hn), hlast]
      exact ⟨_, rfl⟩
    · have hsub := toNat_sub_one hn
      rw [if_pos hn, h.store hn, Option.bind_eq_bind, Option.bind_some]
      exact ih (h.next hn) (by omega)

theorem naiveLoop_patched (val : ℤ) {i : UInt64} (hinside : Inside m p n.toNat) (hi : i ≤ n) (hfuel : n.toNat - i.toNat < fuel) :
    naiveLoop p val n fuel (patched m p (p + i.toNat) fun _ => some (UInt8.ofInt val)) i =
      some (patched m p (p + n.toNat) fun _ => some (UInt8.ofInt val)) := by
  induction fuel generalizing i with
  | zero => omega
  | succ fuel ih =>
    rw [naiveLoop]
    by_cases hmore : i < n
    · have hlt : i.toNat < n.toNat := UInt64.lt_iff_toNat_lt.1 hmore
      have hsucc : (i + 1).toNat = i.toNat + 1 := by
        have hn := n.toNat_lt
        rw [UInt64.toNat_add]
        exact Nat.mod_eq_of_lt (by change i.toNat + 1 < 2 ^ 64; omega)
      rw [if_pos hmore, FlatMemory.store_patched_right (Nat.le_add_right p _) (hinside _ hlt) rfl, Option.bind_eq_bind,
        Option.bind_some, add_assoc, ← hsucc]
      exact ih (UInt64.le_iff_toNat_le.2 (by omega)) (by omega)
    · have heq : i = n := UInt64.le_antisymm hi (UInt64.not_lt.1 hmore)
      rw [if_neg hmore, heq]

/-- **Both versions.** They leave the same memory, and every word is written at an aligned address in the range. -/
theorem memsets_agree (m : Mem UInt8) (dst : ℕ) (val : ℤ) (n : UInt64) (hinside : Inside m dst n.toNat) :
    ∃ m' words, memsetFast m dst val n = some (m', dst, words) ∧ memsetNaive m dst val n = some (m', dst) ∧
      ∀ a ∈ words, 8 ∣ a ∧ dst ≤ a ∧ a + 8 ≤ dst + n.toNat := by
  have hstart : Filling m dst (dst + n.toNat) dst n := by
    refine ⟨fun a hlo hhi => ?_, le_rfl, rfl⟩
    obtain ⟨i, rfl⟩ := Nat.exists_eq_add_of_le hlo
    exact hinside i (by omega)
  obtain ⟨p₁, n₁, hhead, h₁, hle₁, haligned⟩ := headLoop_patched (UInt8.ofInt val) hstart (Nat.lt_succ_self _)
  obtain ⟨p₂, n₂, words, hword, h₂, hle₂, hwords⟩ := wordLoop_patched (UInt8.ofInt val) [] h₁
    (Nat.lt_succ_of_le hle₁) haligned (List.forall_mem_nil _)
  obtain ⟨n₃, htail⟩ := tailLoop_patched (UInt8.ofInt val) h₂ (Nat.lt_succ_of_le (hle₂.trans hle₁))
  have hnaive := naiveLoop_patched val (i := 0) hinside (UInt64.le_iff_toNat_le.2 (Nat.zero_le _))
    (Nat.lt_succ_of_le (Nat.sub_le _ _))
  rw [FlatMemory.patched_empty] at hhead
  refine ⟨patched m dst (dst + n.toNat) fun _ => some (UInt8.ofInt val), words, ?_, ?_, hwords⟩
  · rw [memsetFast, hhead, Option.bind_eq_bind, Option.bind_some, hword, Option.bind_eq_bind, Option.bind_some, htail,
      Option.bind_eq_bind, Option.bind_some]
  · have hzero : dst + (0 : UInt64).toNat = dst := rfl
    rw [hzero, FlatMemory.patched_empty] at hnaive
    rw [memsetNaive, hnaive, Option.bind_eq_bind, Option.bind_some]

theorem memsets_unaligned :
    ∃ m' words, memsetFast (fun a => if a < 40 then some 0 else none) 5 (-1) 20 = some (m', 5, words) ∧
      memsetNaive (fun a => if a < 40 then some 0 else none) 5 (-1) 20 = some (m', 5) ∧
      ∀ a ∈ words, 8 ∣ a ∧ 5 ≤ a ∧ a + 8 ≤ 5 + (20 : UInt64).toNat :=
  memsets_agree _ 5 (-1) 20 (by decide)

end InterviewPrep.MemApis.Memset
