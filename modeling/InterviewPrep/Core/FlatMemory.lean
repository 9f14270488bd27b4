/-
A flat memory.

An address has a byte, or there is no memory. `store` and `storeAll` write where there is some. `patched m lo hi f` is the memory
`m` with other bytes at the addresses from `lo` up to `hi`, the ones that `f` says: what a loop over a range has left so far. A
store at either end makes the range longer (`store_patched_right`, `store_patched_left`, `storeAll_patched`). A word of 8 bytes
is stored with the lowest byte first.
-/
import Mathlib.Data.Option.Basic
import Mathlib.Logic.Function.Basic
import Mathlib.Tactic

namespace InterviewPrep.FlatMemory

variable {β : Type}

abbrev Mem (β : Type) := ℕ → Option β

/-- there is memory at the `n` addresses from `a` on -/
def Inside (m : Mem β) (a n : ℕ) : Prop := ∀ i < n, (m (a + i)).isSome

instance (m : Mem β) (a n : ℕ) : Decidable (Inside m a n) := inferInstanceAs (Decidable (∀ i < n, _))

def store (m : Mem β) (a : ℕ) (b : β) : Option (Mem β) := (m a).map fun _ => Function.update m a (some b)

/-- from the address `a` on -/
def storeAll (m : Mem β) (a : ℕ) : List β → Option (Mem β)
  | [] => some m
  | b :: bs => (store m a b).bind fun m => storeAll m (a + 1) bs

/-- the bytes of a word -/
def littleEndian (w : UInt64) : List UInt8 := (List.range 8).map fun k => (w >>> UInt64.ofNat (8 * k)).toUInt8

def storeWord (m : Mem UInt8) (a : ℕ) (w : UInt64) : Option (Mem UInt8) := storeAll m a (littleEndian w)

def patched (m : Mem β) (lo hi : ℕ) (f : ℕ → Option β) : Mem β := fun a => if lo ≤ a ∧ a < hi then f a else m a

variable {m : Mem β} {f : ℕ → Option β} {lo hi a n : ℕ} {b : β} {bs : List β}

theorem patched_inside (hlo : lo ≤ a) (hhi : a < hi) : patched m lo hi f a = f a := if_pos ⟨hlo, hhi⟩

theorem patched_outside (h : a < lo ∨ hi ≤ a) : patched m lo hi f a = m a := if_neg (by omega)

theorem patched_empty (m : Mem β) (a : ℕ) (f : ℕ → Option β) : patched m a a f = m := by
  funext c
  exact patched_outside (by omega)

theorem store_of_isSome (h : (m a).isSome) : store m a b = some (Function.update m a (some b)) := by
  obtain ⟨c, hc⟩ := Option.isSome_iff_exists.1 h
  rw [store, hc, Option.map_some]

theorem store_patched_right (hle : lo ≤ hi) (hm : (m hi).isSome) (hf : f hi = some b) :
    store (patched m lo hi f) hi b = some (patched m lo (hi + 1) f) := by
  rw [store_of_isSome (by rwa [patched_outside (Or.inr le_rfl)])]
  congr 1
  funext a
  rcases eq_or_ne a hi with rfl | hne
  · rw [Function.update_self, patched_inside hle (Nat.lt_succ_self a), hf]
  · rw [Function.update_of_ne hne]
    exact if_congr (by omega) rfl rfl

theorem store_patched_left (hlt : lo < hi) (hm : (m lo).isSome) (hf : f lo = some b) :
    store (patched m (lo + 1) hi f) lo b = some (patched m lo hi f) := by
  rw [store_of_isSome (by rwa [patched_outside (Or.inl (Nat.lt_succ_self lo))])]
  congr 1
  funext a
  rcases eq_or_ne a lo with rfl | hne
  · rw [Function.update_self, patched_inside le_rfl hlt, hf]
  · rw [Function.update_of_ne hne]
    exact if_congr (by omega) rfl rfl

theorem storeAll_patched (hle : lo ≤ hi) (hm : Inside m hi bs.length) (hf : ∀ i < bs.length, f (hi + i) = bs[i]?) :
    storeAll (patched m lo hi f) hi bs = some (patched m lo (hi + bs.length) f) := by
  induction bs generalizing hi with
  | nil => rfl
  | cons b bs ih =>
    have hfirst := hf 0 (Nat.succ_pos _)
    have hrest : ∀ i < bs.length, f (hi + 1 + i) = bs[i]? := by
      intro i hi'
      have hnext := hf (i + 1) (Nat.succ_lt_succ hi')
      rwa [List.getElem?_cons_succ, ← add_assoc, add_right_comm] at hnext
    have hinside : Inside m (hi + 1) bs.length := by
      intro i hi'
      have hnext := hm (i + 1) (Nat.succ_lt_succ hi')
      rwa [← add_assoc, add_right_comm] at hnext
    rw [storeAll, store_patched_right hle (hm 0 (Nat.succ_pos _)) hfirst, Option.bind_some,
      ih (Nat.le_succ_of_le hle) hinside hrest, List.length_cons, Nat.succ_add_eq_add_succ]

end InterviewPrep.FlatMemory
