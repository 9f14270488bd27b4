/-
The sensor ring of amazon/emergingDevices/producerConsumer.cpp under threads: one producer, one thread for each of the two
consumers, every load, every store and the copy of a slot a step of its own, in any order.

`produce` loads the index, writes the slot, stores the index plus one. `consume` loads its own index, loads the producer's,
decides (and skips ahead) on these two, copies the slot, stores its index plus one. The producer never looks at the
consumers: between the decision and the copy it can come round and write the slot again.

A sample is numbered by the slot writes before it, without bound; the indices wrap at 2^64.

- `copied_right`: if at every copy of a slot at most 1024 slots were written from its number on, every sample returned is the
  one with the number that the consumer stores. A copy at which more were written takes a newer sample, and the run goes on
  to return it;
- `overwritten_slot` is such a run.
-/
import InterviewPrep.RingBuffer.LockFree

namespace InterviewPrep.RingBuffer.Interleaved

open InterviewPrep.RingBuffer.LockFree

/-! ## Model -/

/-- where `produce` is: not called, index loaded, slot written -/
inductive Producer (Sample : Type) where
  | idle
  | loaded (s : Sample) (idx : UInt64)
  | wrote (idx : UInt64)

/-- where `consume` is: not called, own index loaded, decided to read, slot copied -/
inductive Consumer (Sample : Type) where
  | idle
  | loaded (r : UInt64)
  | ready (r : UInt64)
  | copied (r : UInt64) (out : Sample)

structure St (Sample : Type) where
  ring : LockFreeRingBuffer Sample
  producer : Producer Sample
  consumer : Fin 2 → Consumer Sample
  /-- samples written to a slot, by number -/
  produced : List Sample
  /-- calls of `consume` that returned true: consumer, stored index less one, sample -/
  returned : List (Fin 2 × UInt64 × Sample)

inductive Act (Sample : Type) where
  | produce (s : Sample)
  | write
  | publish
  | loadRead (id : Fin 2)
  | loadWrite (id : Fin 2)
  | copy (id : Fin 2)
  | commit (id : Fin 2)

variable {Sample : Type}

namespace St

def init [Inhabited Sample] : St Sample := ⟨.init, .idle, fun _ => .idle, [], []⟩

def setProducer (s : St Sample) (p : Producer Sample) : St Sample := { s with producer := p }

def setConsumer (s : St Sample) (id : Fin 2) (c : Consumer Sample) : St Sample :=
  { s with consumer := Function.update s.consumer id c }

def writeSlot (s : St Sample) (idx : UInt64) (v : Sample) : St Sample :=
  { s with ring := { s.ring with buffer := Function.update s.ring.buffer (slot idx) v }, produced := s.produced ++ [v] }

def storeWrite (s : St Sample) (i : UInt64) : St Sample := { s with ring := { s.ring with writeIndex := i } }

/-- store the index and return true -/
def storeRead (s : St Sample) (id : Fin 2) (r : UInt64) (out : Sample) : St Sample :=
  { s with
    ring := { s.ring with readIndex := Function.update s.ring.readIndex id (r + 1) }
    returned := s.returned ++ [(id, r, out)] }

end St

def step (s : St Sample) : Act Sample → Option (St Sample)
  | .produce v =>
    match s.producer with
    | .idle => some (s.setProducer (.loaded v s.ring.writeIndex))
    | _ => none
  | .write =>
    match s.producer with
    | .loaded v idx => some ((s.writeSlot idx v).setProducer (.wrote idx))
    | _ => none
  | .publish =>
    match s.producer with
    | .wrote idx => some ((s.storeWrite (idx + 1)).setProducer .idle)
    | _ => none
  | .loadRead id =>
    match s.consumer id with
    | .idle => some (s.setConsumer id (.loaded (s.ring.readIndex id)))
    | _ => none
  | .loadWrite id =>
    match s.consumer id with
    | .loaded r =>
      let w := s.ring.writeIndex
      if r ≥ w then some (s.setConsumer id .idle) else some (s.setConsumer id (.ready (skipAhead r w)))
    | _ => none
  | .copy id =>
    match s.consumer id with
    | .ready r => some (s.setConsumer id (.copied r (s.ring.buffer (slot r))))
    | _ => none
  | .commit id =>
    match s.consumer id with
    | .copied r out => some ((s.storeRead id r out).setConsumer id .idle)
    | _ => none

/-- at most 1024 slots were written from the number on that is copied -/
def Fresh (s : St Sample) : Act Sample → Prop
  | .copy id => ∀ r, s.consumer id = .ready r → s.produced.length ≤ r.toNat + 1024
  | _ => True

/-! ## The ring -/

/-- slot writes whose index is not stored yet -/
def Producer.pending : Producer Sample → ℕ
  | .wrote _ => 1
  | _ => 0

/-- the index `produce` has loaded is still the one in the ring -/
def Producer.holds (w : UInt64) : Producer Sample → Prop
  | .idle => True
  | .loaded _ idx => idx = w
  | .wrote idx => idx = w

/-- what holds in every run: the index counts the slot writes modulo 2^64, the slots keep the last 1024 samples, and a
number that a consumer decided to read exists -/
structure Inv (s : St Sample) : Prop where
  count : s.producer.pending ≤ s.produced.length ∧
    s.ring.writeIndex.toNat = (s.produced.length - s.producer.pending) % 2 ^ 64
  holds : s.producer.holds s.ring.writeIndex
  kept : Keeps 1024 s.ring.buffer s.produced
  ready : ∀ id r, s.consumer id = .ready r → r.toNat < s.produced.length

variable {s s' : St Sample} {id : Fin 2}

theorem Inv.writeIndex_le (h : Inv s) : s.ring.writeIndex.toNat ≤ s.produced.length := by
  rw [h.count.2]
  exact (Nat.mod_le _ _).trans (Nat.sub_le _ _)

/-- a consumer moves to a place where it has not decided to read, or to read a number that exists -/
theorem Inv.setConsumer (h : Inv s) {c : Consumer Sample} (hc : ∀ r, c = .ready r → r.toNat < s.produced.length) :
    Inv (s.setConsumer id c) where
  count := h.count
  holds := h.holds
  kept := h.kept
  ready := by
    apply (Function.forall_update_iff s.consumer fun _ c => ∀ r, c = .ready r → r.toNat < s.produced.length).2
    exact ⟨hc, fun j _ => h.ready j⟩

theorem write_inv (h : Inv s) {v : Sample} {idx : UInt64} (hloaded : s.producer = .loaded v idx) :
    Inv ((s.writeSlot idx v).setProducer (.wrote idx)) := by
  have hidx : idx = s.ring.writeIndex := by simpa [hloaded, Producer.holds] using h.holds
  have hcount : s.ring.writeIndex.toNat = s.produced.length % 2 ^ 64 := by
    simpa [hloaded, Producer.pending] using h.count.2
  refine ⟨⟨?_, ?_⟩, hidx, ?_, ?_⟩
  · simp [St.writeSlot, St.setProducer, Producer.pending]
  · simpa [St.writeSlot, St.setProducer, Producer.pending] using hcount
  · show Keeps 1024 (Function.update s.ring.buffer (slot idx) v) (s.produced ++ [v])
    -- 1024 divides 2^64, so the slot is the right one after a wrap as well
    have hslot : slot idx = s.produced.length % 1024 := by
      rw [slot_eq, hidx, hcount, Nat.mod_mod_of_dvd _ (by decide)]
    rw [hslot]
    exact h.kept.write v
  · intro id r hready
    have hlt := h.ready id r hready
    simp only [St.writeSlot, St.setProducer, List.length_append, List.length_singleton]
    omega

theorem publish_inv (h : Inv s) {idx : UInt64} (hwrote : s.producer = .wrote idx) :
    Inv ((s.storeWrite (idx + 1)).setProducer .idle) := by
  obtain ⟨hpending, hcount⟩ := h.count
  have hidx : idx = s.ring.writeIndex := by simpa [hwrote, Producer.holds] using h.holds
  rw [hwrote, Producer.pending] at hpending hcount
  refine ⟨⟨Nat.zero_le _, ?_⟩, trivial, h.kept, h.ready⟩
  calc (idx + 1).toNat
      = ((s.produced.length - 1) % 2 ^ 64 + 1) % 2 ^ 64 := by rw [UInt64.toNat_add, hidx, hcount, UInt64.toNat_one]
    _ = s.produced.length % 2 ^ 64 := by rw [Nat.mod_add_mod, Nat.sub_add_cancel hpending]

theorem loadWrite_inv (h : Inv s) {r : UInt64} (hlt : ¬r ≥ s.ring.writeIndex) :
    Inv (s.setConsumer id (.ready (skipAhead r s.ring.writeIndex))) := by
  refine h.setConsumer fun r' hr' => ?_
  obtain rfl : skipAhead r s.ring.writeIndex = r' := Consumer.ready.inj hr'
  have hw : r < s.ring.writeIndex := UInt64.not_le.1 hlt
  have hskip := toNat_skipAhead hw
  have hwNat : r.toNat < s.ring.writeIndex.toNat := hw
  have hle := h.writeIndex_le
  omega

/-- the steps, with where the thread was -/
inductive Effect (s : St Sample) : Act Sample → St Sample → Prop
  | produce {v : Sample} (hidle : s.producer = .idle) :
      Effect s (.produce v) (s.setProducer (.loaded v s.ring.writeIndex))
  | write {v : Sample} {idx : UInt64} (hloaded : s.producer = .loaded v idx) :
      Effect s .write ((s.writeSlot idx v).setProducer (.wrote idx))
  | publish {idx : UInt64} (hwrote : s.producer = .wrote idx) :
      Effect s .publish ((s.storeWrite (idx + 1)).setProducer .idle)
  | loadRead {id : Fin 2} (hidle : s.consumer id = .idle) :
      Effect s (.loadRead id) (s.setConsumer id (.loaded (s.ring.readIndex id)))
  | noData {id : Fin 2} {r : UInt64} (hloaded : s.consumer id = .loaded r) (hge : r ≥ s.ring.writeIndex) :
      Effect s (.loadWrite id) (s.setConsumer id .idle)
  | decide {id : Fin 2} {r : UInt64} (hloaded : s.consumer id = .loaded r) (hlt : ¬r ≥ s.ring.writeIndex) :
      Effect s (.loadWrite id) (s.setConsumer id (.ready (skipAhead r s.ring.writeIndex)))
  | copy {id : Fin 2} {r : UInt64} (hready : s.consumer id = .ready r) :
      Effect s (.copy id) (s.setConsumer id (.copied r (s.ring.buffer (slot r))))
  | commit {id : Fin 2} {r : UInt64} {out : Sample} (hcopied : s.consumer id = .copied r out) :
      Effect s (.commit id) ((s.storeRead id r out).setConsumer id .idle)

theorem step_effect {a : Act Sample} (hstep : step s a = some s') : Effect s a s' := by
  cases a with
  | produce v =>
    rw [step] at hstep
    split at hstep
    · rename_i hidle
      obtain rfl := Option.some.inj hstep
      exact .produce hidle
    · cases hstep
  | write =>
    rw [step] at hstep
    split at hstep
    · rename_i v idx hloaded
      obtain rfl := Option.some.inj hstep
      exact .write hloaded
    · cases hstep
  | publish =>
    rw [step] at hstep
    split at hstep
    · rename_i idx hwrote
      obtain rfl := Option.some.inj hstep
      exact .publish hwrote
    · cases hstep
  | loadRead id =>
    rw [step] at hstep
    split at hstep
    · rename_i hidle
      obtain rfl := Option.some.inj hstep
      exact .loadRead hidle
    · cases hstep
  | loadWrite id =>
    rw [step] at hstep
    split at hstep
    · rename_i r hloaded
      dsimp only at hstep
      split_ifs at hstep with hge
      · obtain rfl := Option.some.inj hstep
        exact .noData hloaded hge
      · obtain rfl := Option.some.inj hstep
        exact .decide hloaded hge
    · cases hstep
  | copy id =>
    rw [step] at hstep
    split at hstep
    · rename_i r hready
      obtain rfl := Option.some.inj hstep
      exact .copy hready
    · cases hstep
  | commit id =>
    rw [step] at hstep
    split at hstep
    · rename_i r out hcopied
      obtain rfl := Option.some.inj hstep
      exact .commit hcopied
    · cases hstep

theorem step_inv (s : St Sample) (a : Act Sample) (s' : St Sample) (hstep : step s a = some s') (h : Inv s) : Inv s' := by
  cases step_effect hstep with
  | produce hidle =>
    refine ⟨?_, rfl, h.kept, h.ready⟩
    have hcount := h.count
    rwa [hidle] at hcount
  | write hloaded => exact write_inv h hloaded
  | publish hwrote => exact publish_inv h hwrote
  | loadRead hidle => exact h.setConsumer (by simp)
  | noData hloaded hge => exact h.setConsumer (by simp)
  | decide hloaded hlt => exact loadWrite_inv h hlt
  | copy hready => exact h.setConsumer (by simp)
  | @commit id r out hcopied =>
    have hstore : Inv (s.storeRead id r out) := ⟨h.count, h.holds, h.kept, h.ready⟩
    exact hstore.setConsumer (by simp)

/-! ## What is returned -/

/-- copied and returned samples have the number they are taken for -/
structure Right (s : St Sample) : Prop where
  copied : ∀ id r out, s.consumer id = .copied r out → s.produced[r.toNat]? = some out
  returned : ∀ p ∈ s.returned, s.produced[p.2.1.toNat]? = some p.2.2

theorem Right.setConsumer (h : Right s) {c : Consumer Sample}
    (hc : ∀ r out, c = .copied r out → s.produced[r.toNat]? = some out) : Right (s.setConsumer id c) where
  copied := by
    apply (Function.forall_update_iff s.consumer fun _ c => ∀ r out, c = .copied r out → s.produced[r.toNat]? = some out).2
    exact ⟨hc, fun j _ => h.copied j⟩
  returned := h.returned

theorem getElem?_concat {l : List Sample} {n : ℕ} {x : Sample} (h : l[n]? = some x) (v : Sample) :
    (l ++ [v])[n]? = some x := by
  rw [List.getElem?_append_left (List.getElem?_eq_some_iff.1 h).1, h]

theorem step_right (hinv : Inv s) (h : Right s) {a : Act Sample} (hfresh : Fresh s a) (hstep : step s a = some s') :
    Right s' := by
  cases step_effect hstep with
  | produce hidle => exact ⟨h.copied, h.returned⟩
  | @write v idx hloaded =>
    exact ⟨fun id r out hc => getElem?_concat (h.copied id r out hc) v, fun p hp => getElem?_concat (h.returned p hp) v⟩
  | publish hwrote => exact ⟨h.copied, h.returned⟩
  | loadRead hidle => exact h.setConsumer (by simp)
  | noData hloaded hge => exact h.setConsumer (by simp)
  | decide hloaded hlt => exact h.setConsumer (by simp)
  | @copy id r hready =>
    refine h.setConsumer fun r' out hout => ?_
    obtain ⟨rfl, rfl⟩ := Consumer.copied.inj hout
    have hthere := List.getElem?_eq_getElem (hinv.ready id r hready)
    rw [hthere, slot_eq, hinv.kept _ _ hthere (hfresh r hready)]
  | @commit id r out hcopied =>
    have hstore : Right (s.storeRead id r out) := by
      refine ⟨h.copied, fun p hp => ?_⟩
      rcases List.mem_append.1 hp with hold | hnew
      · exact h.returned p hold
      · rw [List.mem_singleton.1 hnew]
        exact h.copied id r out hcopied
    exact hstore.setConsumer (by simp)

/-- a copy that is too late takes a newer sample, and `consume` returns it -/
theorem stale_of_late (hinv : Inv s) {r : UInt64} (hready : s.consumer id = .ready r) (hlate : ¬Fresh s (.copy id))
    (hdistinct : s.produced.Nodup) :
    ∃ s', Machine.exec step s [.copy id, .commit id] = some s' ∧
      ∃ out, (id, r, out) ∈ s'.returned ∧ s'.produced[r.toNat]? ≠ some out := by
  have hgone : r.toNat + 1024 < s.produced.length := by
    by_contra hle
    push Not at hle
    refine hlate fun r' hr' => ?_
    obtain rfl : r = r' := Consumer.ready.inj (hready.symm.trans hr')
    exact hle
  obtain ⟨m, hlt, hm⟩ := hinv.kept.later (by decide) hgone
  refine ⟨((s.setConsumer id (.copied r (s.ring.buffer (slot r)))).storeRead id r (s.ring.buffer (slot r))).setConsumer
    id .idle, ?_, s.ring.buffer (slot r), ?_, ?_⟩
  · have hone : step s (.copy id) = some (s.setConsumer id (.copied r (s.ring.buffer (slot r)))) := by rw [step, hready]
    rw [Machine.exec, hone, Option.bind_some, Machine.exec]
    simp [step, St.setConsumer, Machine.exec]
  · exact List.mem_append_right _ (List.mem_singleton_self _)
  · intro heq
    rw [slot_eq] at heq
    have hsame : s.produced[r.toNat]? = s.produced[m]? := (show s.produced[r.toNat]? = _ from heq).trans hm.symm
    exact absurd ((List.getElem?_inj (by omega) hdistinct).1 hsame) hlt.ne

variable [Inhabited Sample]

def run (acts : List (Act Sample)) : Option (St Sample) := Machine.exec step .init acts

theorem init_inv : Inv (.init : St Sample) := by
  refine ⟨⟨le_rfl, rfl⟩, trivial, Keeps.nil _ _, ?_⟩
  intro id r hr
  cases hr

theorem run_inv {acts : List (Act Sample)} (hrun : run acts = some s) : Inv s :=
  Machine.exec_inv step_inv hrun init_inv

/-- **What `consume` returns.** In a run in which, at every copy of a slot, at most 1024 slots were written from its number
on, every sample returned with number `r` is the sample produced with number `r`. Whenever a consumer is about to copy and
more were written, and the samples are distinct, its next two steps return another sample. -/
theorem copied_right (acts : List (Act Sample)) (s : St Sample) (hrun : run acts = some s) :
    (Machine.Meets step Fresh St.init acts → ∀ p ∈ s.returned, s.produced[p.2.1.toNat]? = some p.2.2) ∧
      ∀ id r, s.consumer id = .ready r → ¬Fresh s (.copy id) → s.produced.Nodup →
        ∃ s', run (acts ++ [.copy id, .commit id]) = some s' ∧
          ∃ out, (id, r, out) ∈ s'.returned ∧ s'.produced[r.toNat]? ≠ some out := by
  constructor
  · intro hmeets
    have hboth : Inv s ∧ Right s := by
      refine Machine.exec_inv_of_meets (P := fun s => Inv s ∧ Right s) ?_ hrun hmeets ⟨init_inv, ?_⟩
      · intro s a t hstep hfresh ⟨hinv, hright⟩
        exact ⟨step_inv s a t hstep hinv, step_right hinv hright hfresh hstep⟩
      · refine ⟨fun id r out hc => ?_, by simp [St.init]⟩
        cases hc
    exact hboth.2.returned
  · intro id r hready hlate hdistinct
    obtain ⟨s', hexec, hstale⟩ := stale_of_late (run_inv hrun) hready hlate hdistinct
    exact ⟨s', Machine.exec_trans hrun hexec, hstale⟩

/-- numerals of `Fin 2` -/
local instance neZeroTwo : NeZero 2 := ⟨two_ne_zero⟩

/-- a sample goes through -/
def inTime : List (Act ℕ) := [.produce 7, .write, .publish, .loadRead 0, .loadWrite 0, .copy 0, .commit 0]

theorem inTime_fresh : Machine.Meets step Fresh St.init inTime := by
  -- one slot is written
  refine .cons rfl trivial (.cons rfl trivial (.cons rfl trivial (.cons rfl trivial (.cons rfl trivial
    (.cons rfl ?_ (.cons rfl trivial trivial))))))
  intro r hr
  exact (show 1 ≤ 1024 by decide).trans (Nat.le_add_left 1024 _)

theorem copied_right_inTime : ∃ s, run inTime = some s ∧ s.returned = [(0, 0, 7)] ∧
    ∀ p ∈ s.returned, s.produced[p.2.1.toNat]? = some p.2.2 :=
  ⟨_, rfl, rfl, (copied_right inTime _ rfl).1 inTime_fresh⟩

/-- complete calls of `produce` -/
def produceAll (samples : List Sample) : List (Act Sample) :=
  samples.flatMap fun v => [.produce v, .write, .publish]

omit [Inhabited Sample] in
theorem exec_produce (v : Sample) {s : St Sample} (hidle : s.producer = .idle) :
    ∃ t, Machine.exec step s [.produce v, .write, .publish] = some t ∧ t.producer = .idle ∧ t.consumer = s.consumer ∧
      t.produced = s.produced ++ [v] := by
  have hone : step s (.produce v) = some (s.setProducer (.loaded v s.ring.writeIndex)) := by rw [step, hidle]
  rw [Machine.exec, hone, Option.bind_some]
  exact ⟨_, rfl, rfl, rfl, rfl⟩

omit [Inhabited Sample] in
theorem exec_produceAll (samples : List Sample) {s : St Sample} (hidle : s.producer = .idle) :
    ∃ s', Machine.exec step s (produceAll samples) = some s' ∧ s'.producer = .idle ∧ s'.consumer = s.consumer ∧
      s'.produced = s.produced ++ samples := by
  induction samples generalizing s with
  | nil => exact ⟨s, rfl, hidle, rfl, (List.append_nil _).symm⟩
  | cons v samples ih =>
    obtain ⟨t, hone, hnext, hsame, hmore⟩ := exec_produce v hidle
    obtain ⟨s', hrest, hend, hconsumer, hproduced⟩ := ih hnext
    refine ⟨s', Machine.exec_trans hone hrest, hend, hconsumer.trans hsame, ?_⟩
    rw [hproduced, hmore, List.append_assoc, List.singleton_append]

/-- a sample is produced, and consumer 0 decides to read it -/
def decideRead (v : Sample) : List (Act Sample) := [.produce v, .write, .publish, .loadRead 0, .loadWrite 0]

def readOn : List (Act Sample) := [.copy 0, .commit 0]

/-- consumer 0 decides to read sample 0, and the producer goes on -/
theorem decide_then_produce (v : Sample) (samples : List Sample) :
    ∃ s, run (decideRead v ++ produceAll samples) = some s ∧
      s.consumer 0 = .ready 0 ∧ s.produced = v :: samples := by
  have hskip : skipAhead 0 (0 + 1) = 0 := by decide
  obtain ⟨t, hfirst, hidle, hready, hone⟩ : ∃ t : St Sample,
      Machine.exec step .init (decideRead v) = some t ∧
        t.producer = .idle ∧ t.consumer 0 = .ready 0 ∧ t.produced = [v] :=
    ⟨_, rfl, rfl, congrArg Consumer.ready hskip, rfl⟩
  obtain ⟨s, hexec, -, hconsumer, hproduced⟩ := exec_produceAll samples hidle
  refine ⟨s, ?_, ?_, ?_⟩
  · exact Machine.exec_trans hfirst hexec
  · rw [hconsumer, hready]
  · rw [hproduced, hone, List.singleton_append]

/-- the producer comes round once before the copy -/
theorem overwritten_after_lap (v : Sample) (samples : List Sample) (hlap : samples.length = 1024)
    (hdistinct : (v :: samples).Nodup) :
    ∃ s, run (decideRead v ++ produceAll samples ++ readOn) = some s ∧
      ∃ p ∈ s.returned, s.produced[p.2.1.toNat]? ≠ some p.2.2 := by
  obtain ⟨t, hrun, hready, hproduced⟩ := decide_then_produce v samples
  have hlate : ¬Fresh t (.copy 0) := by
    intro hfresh
    have hle := hfresh 0 hready
    rw [hproduced, List.length_cons, hlap, UInt64.toNat_zero] at hle
    omega
  rw [← hproduced] at hdistinct
  obtain ⟨s, hstale, out, hmem, hwrong⟩ := stale_of_late (run_inv hrun) hready hlate hdistinct
  exact ⟨s, Machine.exec_trans hrun hstale, (0, 0, out), hmem, hwrong⟩

/-- **An overwritten slot.** Consumer 0 decides to read sample 0; the producer makes 1024 more calls, the last of which
writes slot 0 again; the consumer copies the slot, stores index 1 and returns a sample that is not the one with number 0. -/
theorem overwritten_slot : ∃ (acts : List (Act ℕ)) (s : St ℕ), run acts = some s ∧
    ∃ p ∈ s.returned, s.produced[p.2.1.toNat]? ≠ some p.2.2 := by
  have hdistinct : (0 :: List.range' 1 1024).Nodup := by
    rw [List.nodup_cons]
    exact ⟨by simp, List.nodup_range'⟩
  exact ⟨_, overwritten_after_lap 0 (List.range' 1 1024) List.length_range' hdistinct⟩

end InterviewPrep.RingBuffer.Interleaved
