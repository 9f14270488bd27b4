/-
The sensor ring of amazon/emergingDevices/producerConsumer.cpp (`LockFreeRingBuffer`): one producer, two consumers, 1024
slots, absolute 64-bit indices.

Here `produce` and `consume` are one step each. The producer never waits. A consumer that has fallen more than 1024 samples
behind is moved to the oldest sample still there.

The number of a sample is the number of samples produced before it. A run is a list of calls with what each of them
answered; an answer of `consume` carries the number of its sample, which is the index stored, less one.

Result, for every list of calls with fewer than 2^64 calls of `produce`:
- `consume_in_order`: each consumer gets samples in the order of their numbers, the right ones, and false only when nothing
  is left for it; it passes over a sample only when 1024 newer ones are there; its answers do not depend on the calls of the
  other consumer.
-/
import InterviewPrep.Core.Machine
import InterviewPrep.Core.Window

namespace InterviewPrep.RingBuffer.LockFree

/-! ## Model -/

/-- `BUFFER_SIZE` -/
def bufferSize : UInt64 := 1024

structure LockFreeRingBuffer (Sample : Type) where
  buffer : ℕ → Sample
  writeIndex : UInt64
  readIndex : Fin 2 → UInt64

/-- `i & (BUFFER_SIZE - 1)` -/
def slot (i : UInt64) : ℕ := (i &&& (bufferSize - 1)).toNat

/-- the overrun detection of `consume` -/
def skipAhead (r w : UInt64) : UInt64 := if w - r > bufferSize then w - bufferSize else r

namespace LockFreeRingBuffer

variable {Sample : Type}

def init [Inhabited Sample] : LockFreeRingBuffer Sample := ⟨fun _ => default, 0, fun _ => 0⟩

def produce (b : LockFreeRingBuffer Sample) (s : Sample) : LockFreeRingBuffer Sample :=
  let idx := b.writeIndex
  { b with buffer := Function.update b.buffer (slot idx) s, writeIndex := idx + 1 }

/-- `none` is false; otherwise the sample copied to `out` -/
def consume (b : LockFreeRingBuffer Sample) (id : Fin 2) : LockFreeRingBuffer Sample × Option Sample :=
  let r := b.readIndex id
  let w := b.writeIndex
  if r ≥ w then (b, none)
  else
    let r := skipAhead r w
    ({ b with readIndex := Function.update b.readIndex id (r + 1) }, some (b.buffer (slot r)))

end LockFreeRingBuffer

inductive Call (Sample : Type) where
  | produce (s : Sample)
  | consume (id : Fin 2)

inductive Out (Sample : Type) where
  | stored
  | noData (id : Fin 2)
  | got (id : Fin 2) (r : UInt64) (out : Sample)
  deriving DecidableEq

variable {Sample : Type}

def step (b : LockFreeRingBuffer Sample) : Call Sample → LockFreeRingBuffer Sample × Out Sample
  | .produce s => (b.produce s, .stored)
  | .consume id =>
    match b.consume id with
    | (b', none) => (b', .noData id)
    | (b', some out) => (b', .got id (b'.readIndex id - 1) out)

def run [Inhabited Sample] (calls : List (Call Sample)) : LockFreeRingBuffer Sample × List (Out Sample) :=
  Machine.runTotal step .init calls

/-- the samples produced, by number -/
def produced (calls : List (Call Sample)) : List Sample :=
  calls.filterMap fun
    | .produce s => some s
    | .consume _ => none

/-- the samples a consumer got, with their numbers -/
def received (id : Fin 2) (log : List (Out Sample)) : List (UInt64 × Sample) :=
  log.filterMap fun
    | .got j r out => if j = id then some (r, out) else none
    | _ => none

def answersTo (id : Fin 2) : Out Sample → Bool
  | .stored => false
  | .noData j => j = id
  | .got j _ _ => j = id

/-- all answers to a consumer -/
def answers (id : Fin 2) (log : List (Out Sample)) : List (Out Sample) := log.filter (answersTo id)

/-- a call of the producer or of this consumer -/
def concerns (id : Fin 2) : Call Sample → Bool
  | .produce _ => true
  | .consume j => j = id

theorem received_concat (id : Fin 2) (log : List (Out Sample)) (o : Out Sample) :
    received id (log ++ [o]) = received id log ++ received id [o] := List.filterMap_append

theorem received_got (id : Fin 2) (r : UInt64) (out : Sample) : received id [.got id r out] = [(r, out)] := by
  simp [received]

theorem received_got_of_ne {id j : Fin 2} (h : j ≠ id) (r : UInt64) (out : Sample) :
    received id [.got j r out] = [] := by
  simp [received, h]

theorem produced_concat (calls : List (Call Sample)) (call : Call Sample) :
    produced (calls ++ [call]) = produced calls ++ produced [call] := List.filterMap_append

/-! ## Indices -/

theorem slot_eq (i : UInt64) : slot i = i.toNat % 1024 := by
  rw [slot, UInt64.toNat_and]
  exact Nat.and_two_pow_sub_one_eq_mod i.toNat 10

theorem toNat_succ {i : UInt64} (h : i.toNat + 1 < 2 ^ 64) : (i + 1).toNat = i.toNat + 1 := by
  rw [UInt64.toNat_add, UInt64.toNat_one, Nat.mod_eq_of_lt h]

/-- the index moves forward only if the consumer is too far behind, and then to the oldest sample kept -/
theorem toNat_skipAhead {r w : UInt64} (h : r < w) : (skipAhead r w).toNat = max r.toNat (w.toNat - 1024) := by
  have hle : r ≤ w := UInt64.le_of_lt h
  have hlt : r.toNat < w.toNat := h
  have hbuffer : bufferSize.toNat = 1024 := rfl
  unfold skipAhead
  split_ifs with hover
  · rw [gt_iff_lt, UInt64.lt_iff_toNat_lt, UInt64.toNat_sub_of_le _ _ hle, hbuffer] at hover
    have hsize : bufferSize ≤ w := by
      rw [UInt64.le_iff_toNat_le, hbuffer]
      omega
    rw [UInt64.toNat_sub_of_le _ _ hsize, hbuffer]
    omega
  · rw [gt_iff_lt, UInt64.lt_iff_toNat_lt, UInt64.toNat_sub_of_le _ _ hle, hbuffer] at hover
    omega

/-! ## One consumer -/

/-- what a consumer has got from the samples produced, when it looks for number `next` -/
structure Seen (next : ℕ) (samples : List Sample) (got : List (UInt64 × Sample)) : Prop where
  next_le : next ≤ samples.length
  below : ∀ p ∈ got, p.1.toNat < next
  increasing : (got.map Prod.fst).Pairwise (· < ·)
  right : ∀ p ∈ got, samples[p.1.toNat]? = some p.2
  skipped : ∀ n < next, (∀ p ∈ got, p.1.toNat ≠ n) → n + 1025 ≤ samples.length
  last : next = 0 ∨ ∃ p ∈ got, next = p.1.toNat + 1

namespace Seen

variable {next : ℕ} {samples : List Sample} {got : List (UInt64 × Sample)} {r : UInt64} {out : Sample}

theorem nil : Seen 0 ([] : List Sample) [] where
  next_le := le_rfl
  below := by simp
  increasing := List.Pairwise.nil
  right := by simp
  skipped n hn := absurd hn (Nat.not_lt_zero n)
  last := Or.inl rfl

/-- a newer sample changes nothing for what was seen -/
theorem more (h : Seen next samples got) (s : Sample) : Seen next (samples ++ [s]) got where
  next_le := h.next_le.trans (by simp)
  below := h.below
  increasing := h.increasing
  right p hp := by
    rw [List.getElem?_append_left ((h.below p hp).trans_le h.next_le)]
    exact h.right p hp
  skipped n hn hno := (h.skipped n hn hno).trans (by simp)
  last := h.last

/-- the next sample seen, at once or after a jump to the oldest one kept -/
theorem receive (h : Seen next samples got) (hnext : r.toNat = max next (samples.length - 1024))
    (hout : samples[r.toNat]? = some out) : Seen (r.toNat + 1) samples (got ++ [(r, out)]) where
  next_le := (List.getElem?_eq_some_iff.1 hout).1
  below p hp := by
    rcases List.mem_append.1 hp with hold | hnew
    · have hlt := h.below p hold
      omega
    · rw [List.mem_singleton.1 hnew]
      exact Nat.lt_succ_self _
  increasing := by
    rw [List.map_append, List.map_singleton, List.pairwise_append]
    refine ⟨h.increasing, List.pairwise_singleton _ _, fun i hi j hj => ?_⟩
    obtain ⟨p, hp, rfl⟩ := List.mem_map.1 hi
    rw [List.mem_singleton.1 hj, UInt64.lt_iff_toNat_lt]
    exact (h.below p hp).trans_le (hnext ▸ le_max_left _ _)
  right p hp := by
    rcases List.mem_append.1 hp with hold | hnew
    · exact h.right p hold
    · rw [List.mem_singleton.1 hnew]
      exact hout
  skipped n hn hno := by
    rcases Nat.lt_or_ge n next with hlt | hge
    · exact h.skipped n hlt fun p hp => hno p (List.mem_append_left _ hp)
    · have hne := hno (r, out) (by simp)
      have hr : r.toNat < samples.length := (List.getElem?_eq_some_iff.1 hout).1
      dsimp only at hne
      omega
  last := Or.inr ⟨(r, out), by simp, rfl⟩

/-- nothing is left exactly if every sample was received or passed over -/
theorem all_iff (h : Seen next samples got) :
    samples.length ≤ next ↔ ∀ n < samples.length, ∃ p ∈ got, n ≤ p.1.toNat := by
  constructor
  · intro hall n hn
    rcases h.last with hzero | ⟨p, hp, hlast⟩
    · omega
    · exact ⟨p, hp, by omega⟩
  · intro hall
    by_contra hlt
    push Not at hlt
    obtain ⟨p, hp, hle⟩ := hall next hlt
    exact absurd (h.below p hp) (Nat.not_lt.2 hle)

end Seen

/-! ## Runs -/

/-- the indices count samples, the slots keep the last 1024 -/
structure Inv (b : LockFreeRingBuffer Sample) (samples : List Sample) (log : List (Out Sample)) : Prop where
  count : b.writeIndex.toNat = samples.length
  kept : Keeps 1024 b.buffer samples
  seen : ∀ id, Seen (b.readIndex id).toNat samples (received id log)

variable {b : LockFreeRingBuffer Sample} {samples : List Sample} {log : List (Out Sample)}

theorem produce_inv (h : Inv b samples log) (hfew : samples.length + 1 < 2 ^ 64) (s : Sample) :
    Inv (b.produce s) (samples ++ [s]) (log ++ [.stored]) where
  count := by
    show (b.writeIndex + 1).toNat = _
    rw [toNat_succ (h.count ▸ hfew), h.count, List.length_append, List.length_singleton]
  kept := by
    show Keeps 1024 (Function.update b.buffer (slot b.writeIndex) s) _
    rw [slot_eq, h.count]
    exact h.kept.write s
  seen id := by
    have hlog : received id (log ++ [.stored]) = received id log := by
      rw [received_concat]
      exact List.append_nil _
    rw [hlog]
    exact (h.seen id).more s

/-- what `consume` does: nothing, if nothing is left; else the sample at the index is there to be copied -/
theorem consume_cases (h : Inv b samples log) (id : Fin 2) :
    (samples.length ≤ (b.readIndex id).toNat ∧ b.consume id = (b, none)) ∨
      ∃ r out, r.toNat = max (b.readIndex id).toNat (samples.length - 1024) ∧ samples[r.toNat]? = some out ∧
        b.consume id = ({ b with readIndex := Function.update b.readIndex id (r + 1) }, some out) := by
  by_cases hge : b.readIndex id ≥ b.writeIndex
  · left
    refine ⟨?_, if_pos hge⟩
    rw [← h.count]
    exact hge
  · right
    have hlt : b.readIndex id < b.writeIndex := UInt64.not_le.1 hge
    have hr := toNat_skipAhead hlt
    have hltNat : (b.readIndex id).toNat < b.writeIndex.toNat := hlt
    rw [h.count] at hr hltNat
    have hthere : (skipAhead (b.readIndex id) b.writeIndex).toNat < samples.length := by omega
    have hread := h.kept _ _ (List.getElem?_eq_getElem hthere) (by omega)
    refine ⟨_, _, hr, List.getElem?_eq_getElem hthere, ?_⟩
    rw [← hread, ← slot_eq]
    exact if_neg hge

theorem step_consume_inv (h : Inv b samples log) (hfew : samples.length < 2 ^ 64) (id : Fin 2) :
    Inv (step b (.consume id)).1 samples (log ++ [(step b (.consume id)).2]) := by
  rcases consume_cases h id with ⟨-, hnone⟩ | ⟨r, out, hr, hout, hsome⟩
  · simp only [step, hnone]
    refine ⟨h.count, h.kept, fun j => ?_⟩
    have hlog : received j (log ++ [.noData id]) = received j log := by
      rw [received_concat]
      exact List.append_nil _
    rw [hlog]
    exact h.seen j
  · simp only [step, hsome, Function.update_self, UInt64.add_sub_cancel]
    refine ⟨h.count, h.kept, fun j => ?_⟩
    have hlt : r.toNat < samples.length := (List.getElem?_eq_some_iff.1 hout).1
    rcases eq_or_ne j id with rfl | hne
    · rw [received_concat, received_got]
      dsimp only
      rw [Function.update_self, toNat_succ (by omega)]
      exact (h.seen j).receive hr hout
    · rw [received_concat, received_got_of_ne hne.symm, List.append_nil]
      dsimp only
      rw [Function.update_of_ne hne]
      exact h.seen j

variable [Inhabited Sample]

theorem init_inv : Inv (.init : LockFreeRingBuffer Sample) [] [] where
  count := rfl
  kept := Keeps.nil _ _
  seen _ := Seen.nil

theorem run_inv (calls : List (Call Sample)) (hfew : (produced calls).length < 2 ^ 64) :
    Inv (run calls).1 (produced calls) (run calls).2 := by
  refine Machine.runTotal_inv
    (P := fun b calls log => (produced calls).length < 2 ^ 64 → Inv b (produced calls) log) ?_ (fun _ => init_inv)
    calls hfew
  intro b calls log call h hfew
  cases call with
  | produce s =>
    have hcons : produced (calls ++ [.produce s]) = produced calls ++ [s] := produced_concat calls (.produce s)
    rw [hcons] at hfew ⊢
    rw [List.length_append, List.length_singleton] at hfew
    exact produce_inv (h (Nat.lt_of_succ_lt hfew)) hfew s
  | consume id =>
    have hcons : produced (calls ++ [.consume id]) = produced calls :=
      (produced_concat calls (.consume id)).trans (List.append_nil _)
    rw [hcons] at hfew ⊢
    exact step_consume_inv (h hfew) hfew id

/-! ## Two runs -/

/-- the same for the producer and this consumer -/
structure Alike (id : Fin 2) (b b' : LockFreeRingBuffer Sample) : Prop where
  buffer : b.buffer = b'.buffer
  writeIndex : b.writeIndex = b'.writeIndex
  readIndex : b.readIndex id = b'.readIndex id

omit [Inhabited Sample]

theorem step_own {id : Fin 2} (call : Call Sample) (b b' : LockFreeRingBuffer Sample) (hown : concerns id call = true)
    (h : Alike id b b') : Alike id (step b call).1 (step b' call).1 ∧ (step b call).2 = (step b' call).2 := by
  cases call with
  | produce s =>
    refine ⟨⟨?_, ?_, h.readIndex⟩, rfl⟩
    · simp [step, LockFreeRingBuffer.produce, h.buffer, h.writeIndex]
    · simp [step, LockFreeRingBuffer.produce, h.writeIndex]
  | consume j =>
    obtain rfl : j = id := by simpa [concerns] using hown
    by_cases hempty : b'.readIndex j ≥ b'.writeIndex
    · have hone : b.consume j = (b, none) := if_pos (h.readIndex ▸ h.writeIndex ▸ hempty)
      have htwo : b'.consume j = (b', none) := if_pos hempty
      simp only [step, hone, htwo]
      exact ⟨h, trivial⟩
    · simp only [step, LockFreeRingBuffer.consume, h.readIndex, h.writeIndex, if_neg hempty, h.buffer,
        Function.update_self]
      refine ⟨⟨rfl, rfl, ?_⟩, trivial⟩
      simp only [Function.update_self]

/-- a call of the other consumer -/
theorem step_other {id : Fin 2} (call : Call Sample) (b b' : LockFreeRingBuffer Sample)
    (hother : concerns id call = false) (h : Alike id b b') :
    Alike id (step b call).1 b' ∧ answersTo id (step b call).2 = false := by
  cases call with
  | produce s => cases hother
  | consume j =>
    have hne : j ≠ id := by simpa [concerns] using hother
    by_cases hempty : b.readIndex j ≥ b.writeIndex
    · have hone : b.consume j = (b, none) := if_pos hempty
      simp only [step, hone]
      exact ⟨h, by simp [answersTo, hne]⟩
    · simp only [step, LockFreeRingBuffer.consume, if_neg hempty]
      refine ⟨⟨h.buffer, h.writeIndex, ?_⟩, by simp [answersTo, hne]⟩
      simpa [hne.symm] using h.readIndex

/-- **Every consumer on its own.** After every list of calls with fewer than 2^64 calls of `produce`, for each consumer:
the numbers of the samples it got increase strictly, and each is the sample produced with that number; its next `consume`
returns false exactly if every sample was received or passed over; whatever the next one passes over, or any before it,
has at least 1024 newer samples; and its answers are those of any other run with the same calls of `produce` and of this
consumer. -/
theorem consume_in_order [Inhabited Sample] (calls : List (Call Sample)) (hfew : (produced calls).length < 2 ^ 64)
    (id : Fin 2) :
    ((received id (run calls).2).map Prod.fst).Pairwise (· < ·) ∧
      (∀ p ∈ received id (run calls).2, (produced calls)[p.1.toNat]? = some p.2) ∧
      (((run calls).1.consume id).2 = none ↔
        ∀ n < (produced calls).length, ∃ p ∈ received id (run calls).2, n ≤ p.1.toNat) ∧
      (∀ r out, (step (run calls).1 (.consume id)).2 = .got id r out →
        ∀ n < r.toNat, (∀ p ∈ received id (run calls).2, p.1.toNat ≠ n) → n + 1025 ≤ (produced calls).length) ∧
      ∀ calls' : List (Call Sample), calls.filter (concerns id) = calls'.filter (concerns id) →
        answers id (run calls).2 = answers id (run calls').2 := by
  have h := run_inv calls hfew
  refine ⟨(h.seen id).increasing, (h.seen id).right, ?_, ?_, ?_⟩
  · rw [← (h.seen id).all_iff]
    rcases consume_cases h id with ⟨hall, hnone⟩ | ⟨r, out, hr, hout, hsome⟩
    · simp [hnone, hall]
    · have hlt : r.toNat < (produced calls).length := (List.getElem?_eq_some_iff.1 hout).1
      simp only [hsome, reduceCtorEq, false_iff]
      omega
  · intro r out hgot n hn hno
    -- the invariant after the call
    have hafter := (step_consume_inv h hfew id).seen id
    rw [hgot, received_concat, received_got] at hafter
    refine hafter.skipped n (hn.trans (hafter.below (r, out) (by simp))) ?_
    intro p hp
    rcases List.mem_append.1 hp with hold | hnew
    · exact hno p hold
    · rw [List.mem_singleton.1 hnew]
      exact hn.ne'
  · intro calls' hsame
    have hfilter : ∀ calls : List (Call Sample),
        answers id (run calls).2 = answers id (run (calls.filter (concerns id))).2 :=
      Machine.runTotal_filter (R := Alike id) step_own step_other ⟨rfl, rfl, rfl⟩
    calc answers id (run calls).2
        = answers id (run (calls.filter (concerns id))).2 := hfilter calls
      _ = answers id (run (calls'.filter (concerns id))).2 := by rw [hsame]
      _ = answers id (run calls').2 := (hfilter calls').symm

/-- numerals of `Fin 2` -/
local instance neZeroTwo : NeZero 2 := ⟨two_ne_zero⟩

/-- both consumers read the first sample, then consumer 0 finds nothing -/
def twoReaders : List (Call ℕ) := [.consume 1, .produce 7, .consume 0, .consume 0, .consume 1, .produce 8]

theorem consume_in_order_twoReaders :
    received 0 (run twoReaders).2 = [(0, 7)] ∧
      answers 0 (run twoReaders).2 = answers 0 (run [.produce 7, .consume 0, .consume 0, .produce 8]).2 :=
  ⟨by decide, (consume_in_order twoReaders (by decide) 0).2.2.2.2 _ rfl⟩

end InterviewPrep.RingBuffer.LockFree
