/-
concurrency/producerConsumer/producerConsumer.c: one `consumer`, and any number of `producer`s in place of the two of `main`.

The consumer holds `count_mutex` except in `pthread_cond_wait`, which it calls without looking at what has been produced: a signal
that does not find it waiting is lost. A producer reads `i` in its loop condition without the mutex, so that `i` can have passed
`MAX` when it produces. Every step below runs under the mutex as a whole, but for that read; a wait may end by itself
(`spurious`).

- `consumer_ends_iff`: every run is finite; where it stops, all producers have ended, `i` is between `MAX` and `MAX` + the
  number of producers - 1, and the consumer has ended if and only if its wait has ended `MAX` times; else it waits forever. What
  it prints is what the buffer holds after so many productions, although the producers run over it;
- `consumer_ends_lost` is a run in which one signal is lost, and the consumer waits forever.
-/
import InterviewPrep.Core.Machine
import InterviewPrep.Core.Threads

namespace InterviewPrep.Concurrency.LostSignals

/-! ## Model -/

def MAX : ℕ := 50
def BUFLEN : ℕ := 24
def source : List Char := "hello world!".toList
def nul : Char := Char.ofNat 0

inductive Consumer where
  | start
  | waiting
  /-- the wait has ended, and `count_mutex` is not taken again yet -/
  | woken
  | done
  deriving DecidableEq

inductive Producer where
  /-- about to read `i` -/
  | check
  /-- about to take `count_mutex` -/
  | entering
  | done
  deriving DecidableEq

structure St (ι : Type) where
  buffer : ℕ → Char
  rCount : ℕ
  wCount : ℕ
  i : ℕ
  j : ℕ
  consumer : Consumer
  producer : ι → Producer
  /-- signals that have found the consumer waiting -/
  signalled : ℕ
  /-- waits that have ended by themselves -/
  spurious : ℕ
  /-- what the consumer has printed, with `i` at that time -/
  printed : List (ℕ × Char)

inductive Act (ι : Type) where
  | enter
  | consume
  | spurious
  | check (p : ι)
  | produce (p : ι)
  deriving DecidableEq

variable {ι : Type} [DecidableEq ι]

namespace St

/-- the globals are zero -/
def init : St ι := ⟨fun _ => nul, 0, 0, 0, 0, .start, fun _ => .check, 0, 0, []⟩

/-- the loop of the consumer from its condition on: wait, or give the mutex back and end -/
def loop (s : St ι) : St ι := { s with consumer := if s.j < MAX then .waiting else .done }

/-- the buffer is read, when the wait has ended -/
def consume (s : St ι) : St ι :=
  { s with rCount := (s.rCount + 1) % BUFLEN, j := s.j + 1, printed := s.printed ++ [(s.i, s.buffer s.rCount)] }

/-- `pthread_cond_signal(&nonEmpty)` -/
def signal (s : St ι) : St ι :=
  if s.consumer = .waiting then { s with consumer := .woken, signalled := s.signalled + 1 } else s

/-- `strcpy(buffer, "")` ends the string at its first character -/
def produce (s : St ι) (p : ι) : St ι :=
  { s with
    buffer := Function.update (Function.update s.buffer 0 nul) s.wCount (source.getD (s.wCount % source.length) nul)
    wCount := (s.wCount + 1) % BUFLEN
    i := s.i + 1
    producer := Function.update s.producer p .check }

end St

def step (s : St ι) : Act ι → Option (St ι)
  | .enter => if s.consumer = .start then some s.loop else none
  | .consume => if s.consumer = .woken then some s.consume.loop else none
  | .spurious => if s.consumer = .waiting then some { s with consumer := .woken, spurious := s.spurious + 1 } else none
  | .check p =>
    if s.producer p = .check then
      some { s with producer := Function.update s.producer p (if s.i < MAX then .entering else .done) }
    else none
  | .produce p => if s.producer p = .entering then some (s.produce p).signal else none

/-- the `k`-th character of the buffer after `m` productions -/
def slot (m k : ℕ) : Char :=
  if k = 0 then if m % BUFLEN = 1 then 'h' else nul
  else if k < m then source.getD (k % source.length) nul else nul

/-! ## Invariant -/

theorem slot_succ {m k : ℕ} (hk : k < BUFLEN) :
    slot (m + 1) k =
      Function.update (Function.update (slot m) 0 nul) (m % BUFLEN) (source.getD (m % BUFLEN % source.length) nul) k := by
  rcases eq_or_ne k (m % BUFLEN) with rfl | hne
  · rw [Function.update_self, slot]
    split_ifs with h0 h1 hlt
    · rw [h0]
      rfl
    · exact absurd (by rw [Nat.add_mod, h0]; rfl) h1
    · rfl
    · exact absurd (Nat.lt_succ_of_le (Nat.mod_le m BUFLEN)) hlt
  · rw [Function.update_of_ne hne]
    rcases eq_or_ne k 0 with rfl | h0
    · rw [Function.update_self, slot, if_pos rfl, if_neg]
      intro hone
      unfold BUFLEN at hone hne
      omega
    · rw [Function.update_of_ne h0, slot, slot, if_neg h0, if_neg h0]
      have hkm : k ≠ m := by
        rintro rfl
        exact hne (Nat.mod_eq_of_lt hk).symm
      simp only [show k < m + 1 ↔ k < m by omega]

/-- whether the wait has ended -/
def Consumer.pending : Consumer → ℕ
  | .woken => 1
  | _ => 0

def Producer.entered : Producer → ℕ
  | .entering => 1
  | _ => 0

/-- how far the consumer can be, when it has gone round `j` times -/
def Consumer.At : Consumer → ℕ → Prop
  | .start, j => j = 0
  | .done, j => j = MAX
  | _, j => j < MAX

section Runs

variable [Fintype ι]

structure Inv (s : St ι) : Prop where
  rCount : s.rCount = s.j % BUFLEN
  wCount : s.wCount = s.i % BUFLEN
  buffer : ∀ k < BUFLEN, s.buffer k = slot s.i k
  consumer : s.consumer.At s.j
  wakeups : s.j + s.consumer.pending = s.signalled + s.spurious
  signalled : s.signalled ≤ s.i
  -- a producer that is about to produce has seen `i` below `MAX`
  producers : s.i + ∑ p, (s.producer p).entered < MAX + Fintype.card ι
  ended : ∀ p, s.producer p = .done → MAX ≤ s.i
  length : s.printed.length = s.j
  printed : ∀ n r, s.printed[n]? = some r → r.2 = slot r.1 (n % BUFLEN) ∧ n < r.1 + s.spurious

variable {s s' : St ι} {p : ι}

omit [DecidableEq ι] in
theorem init_inv : Inv (St.init : St ι) where
  rCount := rfl
  wCount := rfl
  buffer k _ := by
    rw [slot]
    split_ifs with h0 h1 hlt
    · have hone : 0 % BUFLEN = 1 := h1
      cases hone
    · rfl
    · exact absurd hlt (Nat.not_lt_zero k)
    · rfl
  consumer := rfl
  wakeups := rfl
  signalled := Nat.le_refl 0
  producers := by simp [St.init, Producer.entered, MAX]
  ended p h := by cases h
  length := rfl
  printed n r h := by cases h

theorem at_loop {j : ℕ} (hj : j ≤ MAX) : (if j < MAX then Consumer.waiting else .done).At j := by
  split_ifs with hlt
  · exact hlt
  · exact Nat.le_antisymm hj (Nat.not_lt.1 hlt)

theorem pending_loop (j : ℕ) : (if j < MAX then Consumer.waiting else .done).pending = 0 := by
  split_ifs <;> rfl

omit [DecidableEq ι] in
theorem enter_inv (hs : Inv s) (hstart : s.consumer = .start) : Inv s.loop := by
  have hat := hs.consumer
  have hwakeups := hs.wakeups
  rw [hstart] at hat hwakeups
  have hj : s.j = 0 := hat
  refine { hs with consumer := at_loop (by rw [hj]; exact Nat.zero_le _), wakeups := ?_ }
  exact (congrArg _ (pending_loop s.j)).trans hwakeups

omit [DecidableEq ι] in
theorem consume_inv (hs : Inv s) (hwoken : s.consumer = .woken) : Inv s.consume.loop := by
  have hat := hs.consumer
  have hwakeups := hs.wakeups
  rw [hwoken] at hat hwakeups
  have hj : s.j < MAX := hat
  have hsum : s.j + 1 = s.signalled + s.spurious := hwakeups
  have hsignalled := hs.signalled
  refine { hs with
    rCount := ?_
    consumer := at_loop hj
    wakeups := (congrArg _ (pending_loop (s.j + 1))).trans hsum
    length := ?_
    printed := fun n r hr => ?_ }
  · change (s.rCount + 1) % BUFLEN = (s.j + 1) % BUFLEN
    rw [hs.rCount, Nat.mod_add_mod]
  · change (s.printed ++ [_]).length = s.j + 1
    rw [List.length_append, List.length_singleton, hs.length]
  · change (s.printed ++ [(s.i, s.buffer s.rCount)])[n]? = some r at hr
    change r.2 = slot r.1 (n % BUFLEN) ∧ n < r.1 + s.spurious
    rcases lt_or_ge n s.printed.length with hlt | hge
    · rw [List.getElem?_append_left hlt] at hr
      exact hs.printed n r hr
    · rw [List.getElem?_append_right hge, List.getElem?_singleton] at hr
      obtain ⟨hn, heq⟩ := Option.ite_none_right_eq_some.1 hr
      obtain rfl := Option.some.inj heq
      obtain rfl : n = s.j := by
        rw [← hs.length]
        omega
      refine ⟨?_, by dsimp only; omega⟩
      rw [hs.rCount]
      exact hs.buffer _ (Nat.mod_lt _ (by decide))

omit [DecidableEq ι] in
theorem spurious_inv (hs : Inv s) (hwaiting : s.consumer = .waiting) :
    Inv { s with consumer := .woken, spurious := s.spurious + 1 } := by
  have hat := hs.consumer
  have hwakeups := hs.wakeups
  rw [hwaiting] at hat hwakeups
  refine { hs with consumer := hat, wakeups := congrArg Nat.succ hwakeups, printed := fun n r hr => ?_ }
  obtain ⟨hslot, hlt⟩ := hs.printed n r hr
  exact ⟨hslot, Nat.lt_succ_of_lt hlt⟩

theorem check_inv (hs : Inv s) (hp : s.producer p = .check) :
    Inv { s with producer := Function.update s.producer p (if s.i < MAX then .entering else .done) } := by
  have hsum := sum_update Producer.entered s.producer p (if s.i < MAX then .entering else .done)
  rw [hp] at hsum
  refine { hs with producers := ?_, ended := fun q hq => ?_ }
  · change s.i + ∑ q, (Function.update s.producer p _ q).entered < _
    have hold := hs.producers
    have hcheck : Producer.check.entered = 0 := rfl
    split_ifs at hsum ⊢ with hi
    · have hle : ∑ q, (Function.update s.producer p .entering q).entered ≤ Fintype.card ι := by
        refine (Finset.sum_le_card_nsmul Finset.univ _ 1 fun q _ => ?_).trans (by simp)
        generalize Function.update s.producer p .entering q = x
        cases x <;> decide
      omega
    · have hdone : Producer.done.entered = 0 := rfl
      omega
  · change Function.update s.producer p _ q = .done at hq
    change MAX ≤ s.i
    rcases eq_or_ne q p with rfl | hne
    · rw [Function.update_self] at hq
      split_ifs at hq with hi
      exact Nat.not_lt.1 hi
    · rw [Function.update_of_ne hne] at hq
      exact hs.ended q hq

theorem produce_inv (hs : Inv s) (hp : s.producer p = .entering) : Inv (s.produce p) := by
  have hsum := sum_update Producer.entered s.producer p .check
  rw [hp] at hsum
  have hold := hs.producers
  refine { hs with
    wCount := ?_
    buffer := fun k hk => ?_
    signalled := hs.signalled.trans (Nat.le_succ _)
    producers := ?_
    ended := fun q hq => ?_ }
  · change (s.wCount + 1) % BUFLEN = (s.i + 1) % BUFLEN
    rw [hs.wCount, Nat.mod_add_mod]
  · change Function.update (Function.update s.buffer 0 nul) s.wCount _ k = slot (s.i + 1) k
    rw [slot_succ hk, hs.wCount]
    simp only [Function.update_apply, hs.buffer k hk]
  · change s.i + 1 + ∑ q, (Function.update s.producer p .check q).entered < _
    have hentering : Producer.entering.entered = 1 := rfl
    have hcheck : Producer.check.entered = 0 := rfl
    omega
  · change Function.update s.producer p .check q = .done at hq
    change MAX ≤ s.i + 1
    rcases eq_or_ne q p with rfl | hne
    · rw [Function.update_self] at hq
      cases hq
    · rw [Function.update_of_ne hne] at hq
      exact (hs.ended q hq).trans (Nat.le_succ _)

omit [DecidableEq ι] in
theorem signal_inv (hs : Inv s) (hroom : s.signalled < s.i) : Inv s.signal := by
  rw [St.signal]
  split_ifs with hwaiting
  · have hat := hs.consumer
    have hwakeups := hs.wakeups
    rw [hwaiting] at hat hwakeups
    refine { hs with consumer := hat, wakeups := ?_, signalled := hroom }
    change s.j + 1 = s.signalled + 1 + s.spurious
    have hsum : s.j + 0 = s.signalled + s.spurious := hwakeups
    omega
  · exact hs

theorem step_inv {a : Act ι} (h : step s a = some s') (hs : Inv s) : Inv s' := by
  cases a with
  | enter =>
    obtain ⟨hstart, heq⟩ := Option.ite_none_right_eq_some.1 h
    obtain rfl := Option.some.inj heq
    exact enter_inv hs hstart
  | consume =>
    obtain ⟨hwoken, heq⟩ := Option.ite_none_right_eq_some.1 h
    obtain rfl := Option.some.inj heq
    exact consume_inv hs hwoken
  | spurious =>
    obtain ⟨hwaiting, heq⟩ := Option.ite_none_right_eq_some.1 h
    obtain rfl := Option.some.inj heq
    exact spurious_inv hs hwaiting
  | check p =>
    obtain ⟨hp, heq⟩ := Option.ite_none_right_eq_some.1 h
    obtain rfl := Option.some.inj heq
    exact check_inv hs hp
  | produce p =>
    obtain ⟨hp, heq⟩ := Option.ite_none_right_eq_some.1 h
    obtain rfl := Option.some.inj heq
    exact signal_inv (produce_inv hs hp) (Nat.lt_succ_of_le hs.signalled)

/-! ## Where runs stop -/

def Producer.rank : Producer → ℕ
  | .check => 1
  | _ => 0

def Consumer.rest : Consumer → ℕ → ℕ
  | .start, _ => 2 * MAX + 1
  | .waiting, j => 2 * (MAX - j)
  | .woken, j => 2 * (MAX - j) - 1
  | .done, _ => 0

/-- a bound on the steps to come -/
def potential (s : St ι) : ℕ := 2 * (MAX + Fintype.card ι - s.i) + ∑ p, (s.producer p).rank + s.consumer.rest s.j

theorem rest_loop {j : ℕ} (hj : j < MAX) :
    (if j + 1 < MAX then Consumer.waiting else .done).rest (j + 1) + 1 ≤ Consumer.woken.rest j := by
  split_ifs <;> simp only [Consumer.rest] <;> omega

omit [DecidableEq ι] [Fintype ι] in
/-- a signal does not put the consumer back -/
theorem rest_signal (s : St ι) : s.signal.consumer.rest s.signal.j ≤ s.consumer.rest s.j := by
  rw [St.signal]
  split_ifs with hwaiting
  · rw [hwaiting]
    exact Nat.sub_le _ _
  · exact Nat.le_refl _

theorem potential_step {a : Act ι} (h : step s a = some s') (hs : Inv s) : Inv s' ∧ potential s' + 1 ≤ potential s + 0 := by
  refine ⟨step_inv h hs, ?_⟩
  have hat := hs.consumer
  cases a with
  | enter =>
    obtain ⟨hstart, heq⟩ := Option.ite_none_right_eq_some.1 h
    obtain rfl := Option.some.inj heq
    rw [hstart] at hat
    have hj : s.j = 0 := hat
    have hrest : s.consumer.rest s.j = 2 * MAX + 1 := by rw [hstart, Consumer.rest]
    have hloop : s.loop.consumer.rest s.loop.j = 2 * MAX := by
      change (if s.j < MAX then Consumer.waiting else .done).rest s.j = _
      rw [hj]
      rfl
    simp only [potential, hrest, hloop]
    change 2 * (MAX + Fintype.card ι - s.i) + ∑ p, (s.producer p).rank + 2 * MAX + 1 ≤ _
    omega
  | consume =>
    obtain ⟨hwoken, heq⟩ := Option.ite_none_right_eq_some.1 h
    obtain rfl := Option.some.inj heq
    rw [hwoken] at hat
    have hrest := rest_loop (show s.j < MAX from hat)
    rw [← hwoken] at hrest
    change 2 * (MAX + Fintype.card ι - s.i) + ∑ p, (s.producer p).rank +
      (if s.j + 1 < MAX then Consumer.waiting else .done).rest (s.j + 1) + 1 ≤ potential s + 0
    rw [potential]
    omega
  | spurious =>
    obtain ⟨hwaiting, heq⟩ := Option.ite_none_right_eq_some.1 h
    obtain rfl := Option.some.inj heq
    rw [hwaiting] at hat
    have hj : s.j < MAX := hat
    have hrest : s.consumer.rest s.j = 2 * (MAX - s.j) := by rw [hwaiting, Consumer.rest]
    change 2 * (MAX + Fintype.card ι - s.i) + ∑ p, (s.producer p).rank + (2 * (MAX - s.j) - 1) + 1 ≤ potential s + 0
    rw [potential, hrest]
    omega
  | check p =>
    obtain ⟨hp, heq⟩ := Option.ite_none_right_eq_some.1 h
    obtain rfl := Option.some.inj heq
    have hsum := sum_update Producer.rank s.producer p (if s.i < MAX then .entering else .done)
    have hrank : (if s.i < MAX then Producer.entering else .done).rank = 0 := by split_ifs <;> rfl
    have hcheck : Producer.check.rank = 1 := rfl
    rw [hp] at hsum
    change 2 * (MAX + Fintype.card ι - s.i) + ∑ q, (Function.update s.producer p _ q).rank + s.consumer.rest s.j + 1 ≤
      potential s + 0
    rw [potential]
    omega
  | produce p =>
    obtain ⟨hp, heq⟩ := Option.ite_none_right_eq_some.1 h
    obtain rfl := Option.some.inj heq
    have hsum := sum_update Producer.rank s.producer p .check
    have hcheck : Producer.check.rank = 1 := rfl
    have hentering : Producer.entering.rank = 0 := rfl
    rw [hp] at hsum
    have hroom := hs.producers
    have hrest := rest_signal (s.produce p)
    have hsignal : (s.produce p).signal.i = s.i + 1 ∧ (s.produce p).signal.producer = Function.update s.producer p .check := by
      rw [St.signal]
      split_ifs <;> exact ⟨rfl, rfl⟩
    rw [potential, hsignal.1, hsignal.2]
    change _ ≤ s.consumer.rest s.j at hrest
    rw [potential]
    omega

/-- **Lost signals.** For every interleaving, with any number of producers: the run is finite. The `n`-th character that the
consumer prints is the one that the buffer holds at place `n % BUFLEN` after the `m` productions so far, and `n` is less than
`m` and the number of spurious wakeups together. Where the run stops, every producer has ended, `i` is at least `MAX` and has
passed it by less than the number of producers, and the consumer has ended or waits; it has ended if and only if `MAX` waits
have ended by a signal or by themselves. -/
theorem consumer_ends_iff {acts : List (Act ι)} (hrun : Machine.exec step St.init acts = some s) :
    acts.length ≤ 4 * MAX + 3 * Fintype.card ι + 1 ∧
      (∀ n r, s.printed[n]? = some r → r.2 = slot r.1 (n % BUFLEN) ∧ n < r.1 + s.spurious) ∧
      ((∀ a, a ≠ .spurious → step s a = none) →
        (∀ p, s.producer p = .done ∧ MAX ≤ s.i) ∧ s.i < MAX + Fintype.card ι ∧ s.printed.length = s.signalled + s.spurious ∧
          (s.consumer = .done ∨ s.consumer = .waiting) ∧ (s.consumer = .done ↔ s.signalled + s.spurious = MAX)) := by
  have hs : Inv s := Machine.exec_inv (P := Inv) (fun _ _ _ hstep h => step_inv hstep h) hrun init_inv
  refine ⟨?_, hs.printed, fun hstuck => ?_⟩
  · have hle := Machine.exec_length_le (fun _ _ _ hstep h => potential_step hstep h) hrun init_inv
    have hstart : potential (St.init : St ι) = 2 * (MAX + Fintype.card ι) + Fintype.card ι + (2 * MAX + 1) := by
      simp [potential, St.init, Producer.rank, Consumer.rest]
    rw [List.map_const', List.sum_replicate, smul_zero, add_zero, hstart] at hle
    omega
  · have hproducer : ∀ p, s.producer p = .done := fun p => by
      have hcheck := hstuck (.check p) (by simp)
      have hproduce := hstuck (.produce p) (by simp)
      rw [step] at hcheck
      rw [step] at hproduce
      split_ifs at hcheck hproduce with h1 h2
      cases hp : s.producer p with
      | check => exact absurd hp h1
      | entering => exact absurd hp h2
      | done => rfl
    have hconsumer : s.consumer = .done ∨ s.consumer = .waiting := by
      have henter := hstuck .enter (by simp)
      have hconsume := hstuck .consume (by simp)
      rw [step] at henter
      rw [step] at hconsume
      split_ifs at henter hconsume with h1 h2
      cases hc : s.consumer with
      | start => exact absurd hc h1
      | woken => exact absurd hc h2
      | waiting => exact Or.inr rfl
      | done => exact Or.inl rfl
    have hat := hs.consumer
    have hwakeups := hs.wakeups
    have hroom := hs.producers
    refine ⟨fun p => ⟨hproducer p, hs.ended p (hproducer p)⟩, by omega, ?_, hconsumer, ?_⟩
    · rcases hconsumer with hc | hc <;> rw [hc] at hwakeups <;> exact hs.length.trans hwakeups
    · rcases hconsumer with hc | hc
      · rw [hc] at hat hwakeups
        have hj : s.j = MAX := hat
        exact iff_of_true hc (hwakeups.symm.trans hj)
      · rw [hc] at hat hwakeups
        have hj : s.j < MAX := hat
        have hsum : s.j = s.signalled + s.spurious := hwakeups
        rw [hc]
        exact iff_of_false (by simp) (by omega)

end Runs

/-- the first signal comes before the consumer waits -/
def late : List (Act Unit) :=
  [.check (), .produce (), .enter] ++ (List.replicate 49 [.check (), .produce (), .consume]).flatten ++ [.check ()]

theorem late_run : (Machine.exec step St.init late).map (fun s => (s.consumer, s.i, s.signalled, s.producer ())) =
    some (.waiting, 50, 49, .done) := by decide +kernel

theorem consumer_ends_lost : ∃ s, Machine.exec step St.init late = some s ∧ s.consumer = .waiting ∧ s.i = 50 ∧
    (s.consumer = .done ↔ s.signalled + s.spurious = MAX) := by
  obtain ⟨s, hrun, heq⟩ := Option.map_eq_some_iff.1 late_run
  obtain ⟨hconsumer, hrest⟩ := Prod.mk.inj heq
  obtain ⟨hi, hrest⟩ := Prod.mk.inj hrest
  obtain ⟨-, hproducer⟩ := Prod.mk.inj hrest
  refine ⟨s, hrun, hconsumer, hi, ?_⟩
  refine ((consumer_ends_iff hrun).2.2 fun a ha => ?_).2.2.2.2
  cases a with
  | spurious => exact absurd rfl ha
  | enter => rw [step, hconsumer]; rfl
  | consume => rw [step, hconsumer]; rfl
  | check p => rw [step, hproducer]; rfl
  | produce p => rw [step, hproducer]; rfl

end InterviewPrep.Concurrency.LostSignals
