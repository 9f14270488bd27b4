/-
The program of circularQueue/circularBufferStaticProdCons.cpp, over the ring buffer of `ProdCons`.

The producer pushes 1, 2, 3, … until a `push` returns false, the consumer pops until `pop` returns false, and main calls
`stop` when it has read a key, which may be never. Then it joins both. The values are `int`; a run ends before the `i++` that
overflows, which comes when 2^31 - 1 of them have gone in.

- `buffer_main`: until the key the two never block each other; after it there are at most `capacity_` and two steps, and where
  they end both threads have come to their end, and the consumer has popped exactly the values that `push` accepted, in order.
-/
import InterviewPrep.CircularQueue.ProdCons
import InterviewPrep.Core.Numeral

namespace InterviewPrep.CircularQueue.ProdConsMain

open Numeral (signed signed_of_small signed_eq_some)
open ProdCons (accepted delivered)

/-! ## Model -/

inductive Thread where
  | producer
  | consumer
  deriving DecidableEq

structure St where
  cb : ProdCons.St Thread ℤ
  /-- the value that the producer printed last -/
  i : ℤ
  /-- calls of `push` that returned true -/
  sent : ℕ
  producerStopped : Bool
  consumerStopped : Bool
  popped : List ℤ

/-- `wakes` is the thread that `notify_one` picks -/
inductive Act where
  | push (wakes : Option Thread)
  | resumePush (wakes : Option Thread)
  | pop (wakes : Option Thread)
  | resumePop (wakes : Option Thread)
  | stop
  | spuriousPush
  | spuriousPop
  deriving DecidableEq

namespace St

def init (capacity : ℕ) : St := ⟨.init capacity, 0, 0, false, false, []⟩

def setCb (s : St) (cb : ProdCons.St Thread ℤ) : St := { s with cb := cb }

def print (s : St) (i : ℤ) : St := { s with i := i }

/-- the rest of the loop, when the call has returned -/
def settle (s : St) : ProdCons.Out ℤ → St
  | .pushed _ => { s with sent := s.sent + 1 }
  | .refused => { s with producerStopped := true }
  | .popped v => { s with popped := s.popped ++ [v] }
  | .finished => { s with consumerStopped := true }
  | _ => s

def call (s : St) (b : ProdCons.Act Thread ℤ) : Option St :=
  (ProdCons.step s.cb b).map fun (cb, out) => (s.setCb cb).settle out

end St

def step (s : St) : Act → Option St
  | .push wakes =>
    if s.producerStopped = false then
      -- `i++`, undefined at `INT_MAX`
      (signed (s.i + 1)).bind fun i => (s.print i).call (.push .producer i wakes)
    else none
  | .resumePush wakes => s.call (.resumePush .producer wakes)
  | .pop wakes => if s.consumerStopped = false then s.call (.pop .consumer wakes) else none
  | .resumePop wakes => s.call (.resumePop .consumer wakes)
  | .stop => if s.cb.running = true then s.call .stop else none
  | .spuriousPush => s.call (.spuriousPush .producer)
  | .spuriousPop => s.call (.spuriousPop .consumer)

/-- 1, 2, …, `n` -/
def upTo (n : ℕ) : List ℤ := (List.range' 1 n).map (Nat.cast : ℕ → ℤ)

def run (capacity : ℕ) (acts : List Act) : Option St := Machine.exec step (.init capacity) acts

/-! ## What a step can do -/

/-- the producer calls `push` with `v`, or goes on with it, and has printed `i` by then -/
def Offers (s : St) (a : Act) (v i : ℤ) : Prop :=
  (∃ wakes, a = .push wakes) ∧ s.producerStopped = false ∧ s.cb.idle .producer ∧ signed (s.i + 1) = some i ∧ v = i ∨
    (∃ wakes, a = .resumePush wakes) ∧ .producer ∈ s.cb.notFull.woken ∧ v = s.cb.item .producer ∧ i = s.i

/-- the consumer calls `pop`, or goes on with it -/
def Asks (s : St) (a : Act) : Prop :=
  (∃ wakes, a = .pop wakes) ∧ s.consumerStopped = false ∧ s.cb.idle .consumer ∨
    (∃ wakes, a = .resumePop wakes) ∧ .consumer ∈ s.cb.notEmpty.woken

/-- what the buffer does when a value is offered -/
inductive Pushes (cb : ProdCons.St Thread ℤ) (v : ℤ) : ProdCons.St Thread ℤ → ProdCons.Out ℤ → Prop
  | pushed {c : Cond Thread} (hrunning : cb.running = true) (hbusy : c.busy = cb.notEmpty.busy) :
      Pushes cb v (((cb.setNotFull (cb.notFull.leave .producer)).write v).setNotEmpty c) (.pushed v)
  | refused (hstopped : cb.running = false) : Pushes cb v (cb.setNotFull (cb.notFull.leave .producer)) .refused
  | waits (hrunning : cb.running = true) : Pushes cb v (cb.sleepFull .producer v) .waits

/-- what it does when one is asked for -/
inductive Pops (cb : ProdCons.St Thread ℤ) : ProdCons.St Thread ℤ → ProdCons.Out ℤ → Prop
  | popped {c : Cond Thread} (hsome : 0 < cb.size) (hbusy : c.busy = cb.notFull.busy) :
      Pops cb ((cb.setNotEmpty (cb.notEmpty.leave .consumer)).advance.setNotFull c) (.popped (cb.buffer cb.tail))
  | finished (hempty : cb.size = 0) (hstopped : cb.running = false) :
      Pops cb (cb.setNotEmpty (cb.notEmpty.leave .consumer)) .finished
  | waits (hrunning : cb.running = true) : Pops cb (cb.setNotEmpty (cb.notEmpty.join .consumer)) .waits

/-- `b` is the step of the buffer -/
inductive Effect (s : St) : Act → ProdCons.Act Thread ℤ → ProdCons.St Thread ℤ → ProdCons.Out ℤ → St → Prop
  | push {a : Act} {b : ProdCons.Act Thread ℤ} {v i : ℤ} {cb : ProdCons.St Thread ℤ} {out : ProdCons.Out ℤ}
      (hoffers : Offers s a v i) (hpushes : Pushes s.cb v cb out) : Effect s a b cb out (((s.print i).setCb cb).settle out)
  | pop {a : Act} {b : ProdCons.Act Thread ℤ} {cb : ProdCons.St Thread ℤ} {out : ProdCons.Out ℤ} (hasks : Asks s a)
      (hpops : Pops s.cb cb out) : Effect s a b cb out ((s.setCb cb).settle out)
  | stop (hrunning : s.cb.running = true) : Effect s .stop .stop s.cb.stop .quiet (s.setCb s.cb.stop)
  | wakePush {b : ProdCons.Act Thread ℤ} (hwaiting : .producer ∈ s.cb.notFull.waiting) :
      Effect s .spuriousPush b (s.cb.setNotFull (s.cb.notFull.wake .producer)) .quiet
        (s.setCb (s.cb.setNotFull (s.cb.notFull.wake .producer)))
  | wakePop {b : ProdCons.Act Thread ℤ} (hwaiting : .consumer ∈ s.cb.notEmpty.waiting) :
      Effect s .spuriousPop b (s.cb.setNotEmpty (s.cb.notEmpty.wake .consumer)) .quiet
        (s.setCb (s.cb.setNotEmpty (s.cb.notEmpty.wake .consumer)))

variable {s s' : St} {a : Act} {cb cb' : ProdCons.St Thread ℤ} {out : ProdCons.Out ℤ} {v i : ℤ} {cap : ℕ}
  {wakes : Option Thread}

theorem push_cases (h : cb.push .producer v wakes = some (cb', out)) : Pushes cb v cb' out := by
  unfold ProdCons.St.push at h
  dsimp only at h
  split_ifs at h with hgo hstopped
  · obtain ⟨rfl, rfl⟩ := Prod.mk.inj (Option.some.inj h)
    exact .refused hstopped
  · obtain ⟨c, hnotify, heq⟩ := Option.map_eq_some_iff.1 h
    obtain ⟨rfl, rfl⟩ := Prod.mk.inj heq
    exact .pushed (Bool.eq_true_of_not_eq_false hstopped) (Cond.busy_notifyOne hnotify)
  · obtain ⟨rfl, rfl⟩ := Prod.mk.inj (Option.some.inj h)
    exact .waits (Bool.eq_true_of_not_eq_false fun hstopped => hgo (Or.inr hstopped))

theorem pop_cases (h : cb.pop .consumer wakes = some (cb', out)) : Pops cb cb' out := by
  unfold ProdCons.St.pop at h
  dsimp only at h
  split_ifs at h with hgo hend
  · obtain ⟨rfl, rfl⟩ := Prod.mk.inj (Option.some.inj h)
    exact .finished hend.1 hend.2
  · obtain ⟨c, hnotify, heq⟩ := Option.map_eq_some_iff.1 h
    obtain ⟨rfl, rfl⟩ := Prod.mk.inj heq
    refine .popped ?_ (Cond.busy_notifyOne hnotify)
    rcases hgo with hsome | hstopped
    · exact hsome
    · exact Nat.pos_of_ne_zero fun hzero => hend ⟨hzero, hstopped⟩
  · obtain ⟨rfl, rfl⟩ := Prod.mk.inj (Option.some.inj h)
    exact .waits (Bool.eq_true_of_not_eq_false fun hstopped => hgo (Or.inr hstopped))

theorem call_eq_some {b : ProdCons.Act Thread ℤ} (h : s.call b = some s') :
    ∃ cb out, ProdCons.step s.cb b = some (cb, out) ∧ s' = (s.setCb cb).settle out := by
  obtain ⟨⟨cb, out⟩, hstep, rfl⟩ := Option.map_eq_some_iff.1 h
  exact ⟨cb, out, hstep, rfl⟩

theorem step_effect (h : step s a = some s') :
    ∃ b cb out, ProdCons.step s.cb b = some (cb, out) ∧ Effect s a b cb out s' := by
  cases a with
  | push wakes =>
    obtain ⟨hgoing, hbind⟩ := Option.ite_none_right_eq_some.1 h
    obtain ⟨i, hnext, hcall⟩ := Option.bind_eq_some_iff.1 hbind
    obtain ⟨cb, out, hstep, rfl⟩ := call_eq_some hcall
    obtain ⟨hidle, hpush⟩ := Option.ite_none_right_eq_some.1 hstep
    exact ⟨_, cb, out, hstep, .push (Or.inl ⟨⟨wakes, rfl⟩, hgoing, hidle, hnext, rfl⟩) (push_cases hpush)⟩
  | resumePush wakes =>
    obtain ⟨cb, out, hstep, rfl⟩ := call_eq_some h
    obtain ⟨hwoken, hpush⟩ := Option.ite_none_right_eq_some.1 hstep
    exact ⟨_, cb, out, hstep, .push (Or.inr ⟨⟨wakes, rfl⟩, hwoken, rfl, rfl⟩) (push_cases hpush)⟩
  | pop wakes =>
    obtain ⟨hgoing, hcall⟩ := Option.ite_none_right_eq_some.1 h
    obtain ⟨cb, out, hstep, rfl⟩ := call_eq_some hcall
    obtain ⟨hidle, hpop⟩ := Option.ite_none_right_eq_some.1 hstep
    exact ⟨_, cb, out, hstep, .pop (Or.inl ⟨⟨wakes, rfl⟩, hgoing, hidle⟩) (pop_cases hpop)⟩
  | resumePop wakes =>
    obtain ⟨cb, out, hstep, rfl⟩ := call_eq_some h
    obtain ⟨hwoken, hpop⟩ := Option.ite_none_right_eq_some.1 hstep
    exact ⟨_, cb, out, hstep, .pop (Or.inr ⟨⟨wakes, rfl⟩, hwoken⟩) (pop_cases hpop)⟩
  | stop =>
    obtain ⟨hrunning, hcall⟩ := Option.ite_none_right_eq_some.1 h
    obtain ⟨cb, out, hstep, rfl⟩ := call_eq_some hcall
    obtain ⟨rfl, rfl⟩ := Prod.mk.inj (Option.some.inj hstep)
    exact ⟨.stop, _, _, rfl, .stop hrunning⟩
  | spuriousPush =>
    obtain ⟨cb, out, hstep, rfl⟩ := call_eq_some h
    obtain ⟨hwaiting, heq⟩ := Option.ite_none_right_eq_some.1 hstep
    obtain ⟨rfl, rfl⟩ := Prod.mk.inj (Option.some.inj heq)
    exact ⟨_, _, _, hstep, .wakePush hwaiting⟩
  | spuriousPop =>
    obtain ⟨cb, out, hstep, rfl⟩ := call_eq_some h
    obtain ⟨hwaiting, heq⟩ := Option.ite_none_right_eq_some.1 hstep
    obtain ⟨rfl, rfl⟩ := Prod.mk.inj (Option.some.inj heq)
    exact ⟨_, _, _, hstep, .wakePop hwaiting⟩

/-! ## Invariant -/

/-- the buffer, as its own invariants have it, with what went in and out -/
structure Holds (cap : ℕ) (cb : ProdCons.St Thread ℤ) (popped sent : List ℤ) : Prop where
  log : ∃ acts log, ProdCons.Inv cap cb acts log ∧ delivered log = popped ∧ accepted log = sent
  awake : ProdCons.Awake cb

structure Inv (cap : ℕ) (s : St) : Prop where
  buffer : Holds cap s.cb s.popped (upTo s.sent)
  full : ∀ t ∈ s.cb.notFull.busy, t = .producer
  empty : ∀ t ∈ s.cb.notEmpty.busy, t = .consumer
  item : .producer ∈ s.cb.notFull.busy → s.cb.item .producer = s.i
  /-- the value printed last is on its way, was refused, or went in -/
  printed : s.i = s.sent + if .producer ∈ s.cb.notFull.busy ∨ s.producerStopped = true then 1 else 0
  small : s.i < 2 ^ 31
  producer : s.producerStopped = true → s.cb.running = false ∧ .producer ∉ s.cb.notFull.busy
  consumer : s.consumerStopped = true → s.cb.running = false ∧ s.cb.size = 0 ∧ .consumer ∉ s.cb.notEmpty.busy

theorem upTo_succ (n : ℕ) : upTo (n + 1) = upTo n ++ [(n : ℤ) + 1] := by
  rw [upTo, List.range'_1_concat, List.map_append, List.map_singleton, Nat.cast_add, Nat.cast_one, Int.add_comm 1]
  rfl

theorem Holds.step {popped sent : List ℤ} {b : ProdCons.Act Thread ℤ} (h : Holds cap cb popped sent)
    (hstep : ProdCons.step cb b = some (cb', out)) :
    Holds cap cb' (popped ++ delivered [out]) (sent ++ accepted [out]) := by
  obtain ⟨acts, log, hinv, rfl, rfl⟩ := h.log
  have hsize : cb.size ≤ cb.capacity := hinv.capacity.symm ▸ hinv.size_le
  refine ⟨⟨acts ++ [b], log ++ [out], ProdCons.step_inv hinv hstep, ?_, ?_⟩, ProdCons.step_awake h.awake hsize hstep⟩
  · exact List.filterMap_append
  · exact List.filterMap_append

/-- a step that moves no value -/
theorem Holds.quiet {popped sent : List ℤ} {b : ProdCons.Act Thread ℤ} (h : Holds cap cb popped sent)
    (hstep : ProdCons.step cb b = some (cb', out)) (hdelivered : delivered [out] = []) (haccepted : accepted [out] = []) :
    Holds cap cb' popped sent := by
  have hnext := h.step hstep
  rwa [hdelivered, haccepted, List.append_nil, List.append_nil] at hnext

theorem init_inv (hcap : 1 ≤ cap) : Inv cap (St.init cap) where
  buffer := ⟨⟨[], [], ProdCons.init_inv hcap, rfl, rfl⟩, ProdCons.init_awake cap⟩
  full t ht := absurd ht (Finset.notMem_empty t)
  empty t ht := absurd ht (Finset.notMem_empty t)
  item h := absurd h (Finset.notMem_empty _)
  printed := rfl
  small := (by norm_num : (0 : ℤ) < 2 ^ 31)
  producer h := by cases h
  consumer h := by cases h

/-- a value offered is the one after those that went in, and is printed -/
theorem Inv.offers (h : Inv cap s) (hoffers : Offers s a v i) :
    v = s.sent + 1 ∧ i = s.sent + 1 ∧ .producer ∉ s.cb.notFull.waiting ∧ s.producerStopped = false ∧ i < 2 ^ 31 := by
  rcases hoffers with ⟨-, hgoing, hidle, hnext, rfl⟩ | ⟨-, hwoken, rfl, rfl⟩
  · obtain ⟨rfl, -, hsmall⟩ := signed_eq_some.1 hnext
    have hi := h.printed
    rw [if_neg (by simp [hidle.1, hgoing]), add_zero] at hi
    exact ⟨congrArg (· + 1) hi, congrArg (· + 1) hi, fun hmem => hidle.1 (Cond.mem_busy.2 (Or.inl hmem)), hgoing, hsmall⟩
  · have hbusy : Thread.producer ∈ s.cb.notFull.busy := Cond.mem_busy.2 (Or.inr hwoken)
    have hi := h.printed
    rw [if_pos (Or.inl hbusy)] at hi
    exact ⟨(h.item hbusy).trans hi, hi, Finset.disjoint_right.1 s.cb.notFull.disjoint hwoken,
      Bool.eq_false_of_not_eq_true fun hstopped => (h.producer hstopped).2 hbusy, h.small⟩

theorem Inv.asks (h : Inv cap s) (hasks : Asks s a) :
    .consumer ∉ s.cb.notEmpty.waiting ∧ s.consumerStopped = false := by
  rcases hasks with ⟨-, hgoing, hidle⟩ | ⟨-, hwoken⟩
  · exact ⟨fun hmem => hidle.2 (Cond.mem_busy.2 (Or.inl hmem)), hgoing⟩
  · have hbusy : Thread.consumer ∈ s.cb.notEmpty.busy := Cond.mem_busy.2 (Or.inr hwoken)
    exact ⟨Finset.disjoint_right.1 s.cb.notEmpty.disjoint hwoken,
      Bool.eq_false_of_not_eq_true fun hstopped => (h.consumer hstopped).2.2 hbusy⟩

theorem busy_leave {c : Cond Thread} {t u : Thread} (ht : t ∈ (c.leave u).busy) : t ∈ c.busy := by
  rcases Cond.mem_busy_leave.1 ht with hwaiting | ⟨-, hwoken⟩
  · exact Cond.mem_busy.2 (Or.inl hwaiting)
  · exact Cond.mem_busy.2 (Or.inr hwoken)

theorem notMem_busy_leave {c : Cond Thread} {t : Thread} (ht : t ∉ c.waiting) : t ∉ (c.leave t).busy := by
  rw [Cond.mem_busy_leave]
  simp [ht]

/-- the producer's part of a step -/
theorem push_inv (h : Inv cap s) (hoffers : Offers s a v i) (hpushes : Pushes s.cb v cb out) {b : ProdCons.Act Thread ℤ}
    (hstep : ProdCons.step s.cb b = some (cb, out)) : Inv cap (((s.print i).setCb cb).settle out) := by
  obtain ⟨rfl, rfl, hawake, hgoing, hsmall⟩ := h.offers hoffers
  have hout : Thread.producer ∉ (s.cb.notFull.leave .producer).busy := notMem_busy_leave hawake
  have hfull : ∀ t ∈ (s.cb.notFull.leave .producer).busy, t = .producer := fun t ht => h.full t (busy_leave ht)
  cases hpushes with
  | @pushed c hrunning hbusy =>
    have hbuffer := h.buffer.step hstep
    rw [show delivered [ProdCons.Out.pushed ((s.sent : ℤ) + 1)] = [] from rfl, List.append_nil,
      show accepted [ProdCons.Out.pushed ((s.sent : ℤ) + 1)] = [(s.sent : ℤ) + 1] from rfl, ← upTo_succ] at hbuffer
    refine ⟨hbuffer, hfull, fun t ht => h.empty t (hbusy ▸ ht), fun hmem => absurd hmem hout, ?_, hsmall,
      fun hstopped => absurd (hgoing.symm.trans hstopped) (by decide), fun hstopped => ?_⟩
    · change (s.sent : ℤ) + 1 =
        (s.sent + 1 : ℕ) + if .producer ∈ (s.cb.notFull.leave .producer).busy ∨ s.producerStopped = true then 1 else 0
      rw [if_neg (not_or.2 ⟨hout, by simp [hgoing]⟩), add_zero, Nat.cast_succ]
    · exact absurd (hrunning.symm.trans (h.consumer hstopped).1) (by decide)
  | refused hstopped =>
    refine ⟨h.buffer.quiet hstep rfl rfl, hfull, h.empty, fun hmem => absurd hmem hout, ?_, hsmall,
      fun _ => ⟨hstopped, hout⟩, h.consumer⟩
    exact congrArg ((s.sent : ℤ) + ·) (if_pos (Or.inr rfl)).symm
  | waits hrunning =>
    have hbusy : (s.cb.notFull.join .producer).busy = insert .producer s.cb.notFull.busy := Cond.busy_join
    have hin : Thread.producer ∈ (s.cb.notFull.join .producer).busy := hbusy ▸ Finset.mem_insert_self _ _
    refine ⟨h.buffer.quiet hstep rfl rfl, fun t ht => ?_, h.empty, fun _ => ?_, ?_, hsmall,
      fun hstopped => absurd (hgoing.symm.trans hstopped) (by decide), h.consumer⟩
    · have hmem : t ∈ (s.cb.notFull.join .producer).busy := ht
      rw [hbusy] at hmem
      rcases Finset.mem_insert.1 hmem with heq | hmem
      · exact heq
      · exact h.full t hmem
    · exact Function.update_self Thread.producer ((s.sent : ℤ) + 1) s.cb.item
    · exact congrArg ((s.sent : ℤ) + ·) (if_pos (Or.inl hin)).symm

/-- the consumer's part of a step -/
theorem pop_inv (h : Inv cap s) (hasks : Asks s a) (hpops : Pops s.cb cb out) {b : ProdCons.Act Thread ℤ}
    (hstep : ProdCons.step s.cb b = some (cb, out)) : Inv cap ((s.setCb cb).settle out) := by
  obtain ⟨hawake, hgoing⟩ := h.asks hasks
  have hout : Thread.consumer ∉ (s.cb.notEmpty.leave .consumer).busy := notMem_busy_leave hawake
  have hempty : ∀ t ∈ (s.cb.notEmpty.leave .consumer).busy, t = .consumer := fun t ht => h.empty t (busy_leave ht)
  cases hpops with
  | @popped c hsome hbusy =>
    have hbuffer := h.buffer.step hstep
    rw [show accepted [ProdCons.Out.popped (s.cb.buffer s.cb.tail)] = [] from rfl, List.append_nil] at hbuffer
    refine ⟨hbuffer, fun t ht => h.full t (hbusy ▸ ht), hempty, fun hmem => h.item (hbusy ▸ hmem), ?_, h.small, fun hstopped => ?_,
      fun hstopped => absurd (hgoing.symm.trans hstopped) (by decide)⟩
    · change s.i = s.sent + if .producer ∈ c.busy ∨ s.producerStopped = true then 1 else 0
      rw [hbusy]
      exact h.printed
    · obtain ⟨hoff, hmem⟩ := h.producer hstopped
      exact ⟨hoff, fun hbefore => hmem (hbusy ▸ hbefore)⟩
  | finished hzero hstopped =>
    exact ⟨h.buffer.quiet hstep rfl rfl, h.full, hempty, h.item, h.printed, h.small, h.producer, fun _ => ⟨hstopped, hzero, hout⟩⟩
  | waits hrunning =>
    refine ⟨h.buffer.quiet hstep rfl rfl, h.full, fun t ht => ?_, h.item, h.printed, h.small, h.producer,
      fun hstopped => absurd (hgoing.symm.trans hstopped) (by decide)⟩
    have hmem : t ∈ (s.cb.notEmpty.join .consumer).busy := ht
    rw [Cond.busy_join] at hmem
    rcases Finset.mem_insert.1 hmem with heq | hmem
    · exact heq
    · exact h.empty t hmem

theorem step_inv (h : Inv cap s) (hstep : step s a = some s') : Inv cap s' := by
  obtain ⟨b, cb, out, hcb, heffect⟩ := step_effect hstep
  cases heffect with
  | push hoffers hpushes => exact push_inv h hoffers hpushes hcb
  | pop hasks hpops => exact pop_inv h hasks hpops hcb
  | stop hrunning =>
    have hfull : s.cb.notFull.notifyAll.busy = s.cb.notFull.busy := Cond.busy_notifyAll
    have hempty : s.cb.notEmpty.notifyAll.busy = s.cb.notEmpty.busy := Cond.busy_notifyAll
    refine ⟨h.buffer.quiet hcb rfl rfl, fun t ht => h.full t (hfull ▸ ht), fun t ht => h.empty t (hempty ▸ ht),
      fun hmem => h.item (hfull ▸ hmem), ?_, h.small, fun hstopped => ⟨rfl, fun hmem => (h.producer hstopped).2 (hfull ▸ hmem)⟩,
      fun hstopped => ⟨rfl, (h.consumer hstopped).2.1, fun hmem => (h.consumer hstopped).2.2 (hempty ▸ hmem)⟩⟩
    change s.i = s.sent + if .producer ∈ s.cb.notFull.notifyAll.busy ∨ s.producerStopped = true then 1 else 0
    rw [hfull]
    exact h.printed
  | wakePush hwaiting =>
    have hbusy : (s.cb.notFull.wake .producer).busy = s.cb.notFull.busy := Cond.busy_wake hwaiting
    refine ⟨h.buffer.quiet hcb rfl rfl, fun t ht => h.full t (hbusy ▸ ht), h.empty, fun hmem => h.item (hbusy ▸ hmem), ?_, h.small,
      fun hstopped => ⟨(h.producer hstopped).1, fun hmem => (h.producer hstopped).2 (hbusy ▸ hmem)⟩, h.consumer⟩
    change s.i = s.sent + if .producer ∈ (s.cb.notFull.wake .producer).busy ∨ s.producerStopped = true then 1 else 0
    rw [hbusy]
    exact h.printed
  | wakePop hwaiting =>
    have hbusy : (s.cb.notEmpty.wake .consumer).busy = s.cb.notEmpty.busy := Cond.busy_wake hwaiting
    exact ⟨h.buffer.quiet hcb rfl rfl, h.full, fun t ht => h.empty t (hbusy ▸ ht), h.item, h.printed, h.small, h.producer,
      fun hstopped => ⟨(h.consumer hstopped).1, (h.consumer hstopped).2.1, fun hmem => (h.consumer hstopped).2.2 (hbusy ▸ hmem)⟩⟩

theorem run_inv (hcap : 1 ≤ cap) {acts : List Act} (hrun : run cap acts = some s) : Inv cap s :=
  Machine.exec_inv (P := Inv cap) (fun _ _ _ hstep h => step_inv h hstep) hrun (init_inv hcap)

theorem Inv.size_le (h : Inv cap s) : s.cb.size ≤ cap := by
  obtain ⟨acts, log, hinv, -, -⟩ := h.buffer.log
  exact hinv.size_le

theorem Inv.capacity (h : Inv cap s) : s.cb.capacity = cap := by
  obtain ⟨acts, log, hinv, -, -⟩ := h.buffer.log
  exact hinv.capacity

/-- what is out, and what is inside, went in -/
theorem Inv.popped (h : Inv cap s) : ∃ q : List ℤ, q.length = s.cb.size ∧ upTo s.sent = s.popped ++ q := by
  obtain ⟨acts, log, hinv, hdelivered, haccepted⟩ := h.buffer.log
  obtain ⟨q, -, hsize, hlog⟩ := hinv.queue
  exact ⟨q, hsize.symm, by rw [← haccepted, hlog, hdelivered]⟩

/-! ## Before the key -/

/-- the threads' own steps -/
def Act.own : Act → Bool
  | .push _ | .resumePush _ | .pop _ | .resumePop _ => true
  | _ => false

theorem push_isSome (cb : ProdCons.St Thread ℤ) (v : ℤ) : ∃ wakes, (cb.push .producer v wakes).isSome := by
  obtain ⟨wakes, c, hnotify⟩ := Cond.exists_notifyOne cb.notEmpty
  refine ⟨wakes, ?_⟩
  unfold ProdCons.St.push
  dsimp only [ProdCons.St.setNotFull]
  split_ifs
  · rfl
  · rw [hnotify]
    rfl
  · rfl

theorem pop_isSome (cb : ProdCons.St Thread ℤ) : ∃ wakes, (cb.pop .consumer wakes).isSome := by
  obtain ⟨wakes, c, hnotify⟩ := Cond.exists_notifyOne cb.notFull
  refine ⟨wakes, ?_⟩
  unfold ProdCons.St.pop
  dsimp only [ProdCons.St.setNotEmpty]
  split_ifs
  · rfl
  · rw [hnotify]
    rfl
  · rfl

/-- a producer that does not sleep and has not come to its end can go on -/
theorem producer_goes (h : Inv cap s) (hsent : s.sent < 2 ^ 31 - 1) (hgoing : s.producerStopped = false)
    (hawake : .producer ∉ s.cb.notFull.waiting) : ∃ a : Act, a.own = true ∧ (step s a).isSome := by
  by_cases hwoken : Thread.producer ∈ s.cb.notFull.woken
  · obtain ⟨wakes, hpush⟩ := push_isSome s.cb (s.cb.item .producer)
    exact ⟨.resumePush wakes, rfl, by simpa [step, St.call, ProdCons.step, hwoken] using hpush⟩
  · have hidle : s.cb.idle .producer := by
      refine ⟨?_, fun hmem => absurd (h.empty _ hmem) (by decide)⟩
      rw [Cond.mem_busy, not_or]
      exact ⟨hawake, hwoken⟩
    obtain ⟨wakes, hpush⟩ := push_isSome s.cb (s.i + 1)
    have hi := h.printed
    rw [if_neg (by simp [hidle.1, hgoing]), add_zero] at hi
    have hnext : signed (s.i + 1) = some (s.i + 1) := signed_of_small (by omega) (by omega)
    exact ⟨.push wakes, rfl, by simpa [step, hnext, St.call, St.print, ProdCons.step, hgoing, hidle] using hpush⟩

theorem consumer_goes (h : Inv cap s) (hgoing : s.consumerStopped = false) (hawake : .consumer ∉ s.cb.notEmpty.waiting) :
    ∃ a : Act, a.own = true ∧ (step s a).isSome := by
  by_cases hwoken : Thread.consumer ∈ s.cb.notEmpty.woken
  · obtain ⟨wakes, hpop⟩ := pop_isSome s.cb
    exact ⟨.resumePop wakes, rfl, by simpa [step, St.call, ProdCons.step, hwoken] using hpop⟩
  · have hidle : s.cb.idle .consumer := by
      refine ⟨fun hmem => absurd (h.full _ hmem) (by decide), ?_⟩
      rw [Cond.mem_busy, not_or]
      exact ⟨hawake, hwoken⟩
    obtain ⟨wakes, hpop⟩ := pop_isSome s.cb
    exact ⟨.pop wakes, rfl, by simpa [step, St.call, ProdCons.step, hgoing, hidle] using hpop⟩

/-- with only one thread for each condition, a sleeper leaves nobody woken -/
theorem woken_empty {c : Cond Thread} {t : Thread} (honly : ∀ u ∈ c.busy, u = t) (ht : t ∈ c.waiting) : c.woken = ∅ := by
  refine Finset.eq_empty_of_forall_notMem fun u hu => ?_
  obtain rfl := honly u (Cond.mem_busy.2 (Or.inr hu))
  exact Finset.disjoint_left.1 c.disjoint ht hu

/-- the buffer is not full and empty at once -/
theorem Inv.goes (h : Inv cap s) (hcap : 1 ≤ cap) (hrunning : s.cb.running = true) (hsent : s.sent < 2 ^ 31 - 1) :
    ∃ a : Act, a.own = true ∧ (step s a).isSome := by
  have hproducer : s.producerStopped = false :=
    Bool.eq_false_of_not_eq_true fun hstopped => absurd (hrunning.symm.trans (h.producer hstopped).1) (by decide)
  have hconsumer : s.consumerStopped = false :=
    Bool.eq_false_of_not_eq_true fun hstopped => absurd (hrunning.symm.trans (h.consumer hstopped).1) (by decide)
  by_cases hfull : Thread.producer ∈ s.cb.notFull.waiting
  · by_cases hempty : Thread.consumer ∈ s.cb.notEmpty.waiting
    · have hnone := h.buffer.awake.consumers hrunning ⟨_, hempty⟩
      have hall := h.buffer.awake.producers hrunning ⟨_, hfull⟩
      rw [woken_empty h.empty hempty, Finset.card_empty] at hnone
      rw [woken_empty h.full hfull, Finset.card_empty, h.capacity] at hall
      omega
    · exact consumer_goes h hconsumer hempty
  · exact producer_goes h hsent hproducer hfull

/-! ## After it -/

/-- nobody sleeps any more: each thread is about to look, and a value is popped or a thread ends -/
def potential (s : St) : ℕ := s.cb.size + (bif s.producerStopped then 0 else 1) + (bif s.consumerStopped then 0 else 1)

theorem step_potential (h : Inv cap s) (hstopped : s.cb.running = false) (hstep : step s a = some s') :
    s'.cb.running = false ∧ potential s' + 1 ≤ potential s + 0 := by
  obtain ⟨b, cb, out, -, heffect⟩ := step_effect hstep
  cases heffect with
  | push hoffers hpushes =>
    have hgoing := (h.offers hoffers).2.2.2.1
    cases hpushes with
    | pushed hrunning hbusy => exact absurd (hrunning.symm.trans hstopped) (by decide)
    | refused hoff =>
      refine ⟨hoff, ?_⟩
      simp only [potential, St.settle, St.setCb, St.print, ProdCons.St.setNotFull, hgoing, cond_true, cond_false]
      omega
    | waits hrunning => exact absurd (hrunning.symm.trans hstopped) (by decide)
  | pop hasks hpops =>
    have hgoing := (h.asks hasks).2
    cases hpops with
    | popped hsome hbusy =>
      refine ⟨hstopped, ?_⟩
      simp only [potential, St.settle, St.setCb, ProdCons.St.setNotEmpty, ProdCons.St.setNotFull, ProdCons.St.advance]
      omega
    | finished hempty hoff =>
      refine ⟨hoff, ?_⟩
      simp only [potential, St.settle, St.setCb, ProdCons.St.setNotEmpty, hgoing, cond_true, cond_false]
      omega
    | waits hrunning => exact absurd (hrunning.symm.trans hstopped) (by decide)
  | stop hrunning => exact absurd (hrunning.symm.trans hstopped) (by decide)
  | wakePush hwaiting =>
    rw [(h.buffer.awake.stopped hstopped).2] at hwaiting
    exact absurd hwaiting (Finset.notMem_empty _)
  | wakePop hwaiting =>
    rw [(h.buffer.awake.stopped hstopped).1] at hwaiting
    exact absurd hwaiting (Finset.notMem_empty _)

/-- no thread can go on, and no key is waited for -/
def Stuck (s : St) : Prop := ∀ a : Act, a.own = true ∨ a = .stop → step s a = none

theorem Stuck.stopped (h : Stuck s) : s.cb.running = false := by
  by_contra hrunning
  have hnone := h .stop (Or.inr rfl)
  rw [step, if_pos (Bool.eq_true_of_not_eq_false hrunning)] at hnone
  cases hnone

theorem Stuck.ended (h : Stuck s) (hs : Inv cap s) (hsent : s.sent < 2 ^ 31 - 1) :
    s.producerStopped = true ∧ s.consumerStopped = true := by
  obtain ⟨hempty, hfull⟩ := hs.buffer.awake.stopped h.stopped
  constructor
  · by_contra hgoing
    obtain ⟨a, hown, hsome⟩ :=
      producer_goes hs hsent (Bool.eq_false_of_not_eq_true hgoing) (by rw [hfull]; exact Finset.notMem_empty _)
    rw [h a (Or.inl hown)] at hsome
    cases hsome
  · by_contra hgoing
    obtain ⟨a, hown, hsome⟩ :=
      consumer_goes hs (Bool.eq_false_of_not_eq_true hgoing) (by rw [hempty]; exact Finset.notMem_empty _)
    rw [h a (Or.inl hown)] at hsome
    cases hsome

/-- **The program.** With capacity at least 1, whatever the schedule: the consumer pops 1, 2, 3, … in order. Until `stop`, one of
the two threads can go on, as long as the next `i++` does not overflow. After it there are at most `capacity_` and two more steps,
and where no thread can go on both have left their loops, and the consumer has popped exactly the values that went in: all that
the producer printed but the last. -/
theorem buffer_main (cap : ℕ) (hcap : 1 ≤ cap) (acts : List Act) (s : St) (hrun : run cap acts = some s) :
    s.popped <+: upTo s.sent ∧
      (s.cb.running = true → s.sent < 2 ^ 31 - 1 → ∃ a : Act, a.own = true ∧ (step s a).isSome) ∧
      (∀ before after, acts = before ++ .stop :: after → after.length ≤ cap + 2) ∧
      (Stuck s → s.sent < 2 ^ 31 - 1 →
        s.producerStopped = true ∧ s.consumerStopped = true ∧ s.popped = upTo s.sent ∧ s.i = s.sent + 1) := by
  have hs : Inv cap s := run_inv hcap hrun
  obtain ⟨q, hsize, hsplit⟩ := hs.popped
  refine ⟨hsplit ▸ List.prefix_append _ _, hs.goes hcap, ?_, fun hstuck hsent => ?_⟩
  · rintro before after rfl
    rw [run, Machine.exec_append] at hrun
    obtain ⟨t, hbefore, hrest⟩ := Option.bind_eq_some_iff.1 hrun
    obtain ⟨u, hstop, hafter⟩ := Machine.exec_cons_eq_some.1 hrest
    have ht : Inv cap t := run_inv hcap hbefore
    have hu : Inv cap u := step_inv ht hstop
    have hoff : u.cb.running = false := by
      obtain ⟨-, hcall⟩ := Option.ite_none_right_eq_some.1 hstop
      obtain ⟨cb, out, hcb, rfl⟩ := call_eq_some hcall
      obtain ⟨rfl, rfl⟩ := Prod.mk.inj (Option.some.inj hcb)
      rfl
    have hle := Machine.exec_length_le (P := fun s => Inv cap s ∧ s.cb.running = false)
      (fun _ _ _ hstep h => ⟨⟨step_inv h.1 hstep, (step_potential h.1 h.2 hstep).1⟩, (step_potential h.1 h.2 hstep).2⟩)
      hafter ⟨hu, hoff⟩
    have hsmall : potential u ≤ cap + 2 := by
      have hcb := hu.size_le
      have hproducer : (bif u.producerStopped then 0 else 1) ≤ 1 := by cases u.producerStopped <;> decide
      have hconsumer : (bif u.consumerStopped then 0 else 1) ≤ 1 := by cases u.consumerStopped <;> decide
      rw [potential]
      omega
    rw [List.map_const', List.sum_replicate, smul_zero] at hle
    omega
  · obtain ⟨hproducer, hconsumer⟩ := hstuck.ended hs hsent
    have hempty : q = [] := List.eq_nil_of_length_eq_zero (hsize.trans (hs.consumer hconsumer).2.1)
    have hprinted := hs.printed
    rw [if_pos (Or.inr hproducer)] at hprinted
    rw [hempty, List.append_nil] at hsplit
    exact ⟨hproducer, hconsumer, hsplit.symm, hprinted⟩

/-- the consumer sleeps first; the producer has no room for 2 until 1 is out, and prints 3 before it sees `stop` -/
def oneSlot : List Act :=
  [.pop none, .push (some .consumer), .push none, .resumePop (some .producer), .resumePush none, .push none, .stop,
    .resumePush none, .pop none, .pop none]

theorem oneSlot_ends : (run 1 oneSlot).map (fun s => (s.popped, s.sent, s.producerStopped && s.consumerStopped)) =
    some ([1, 2], 2, true) := by decide +kernel

/-- two threads that have left their loops do nothing more -/
theorem stuck_of_ended (hs : Inv cap s) (hproducer : s.producerStopped = true) (hconsumer : s.consumerStopped = true) :
    Stuck s := by
  have hfull : .producer ∉ s.cb.notFull.woken := fun h => (hs.producer hproducer).2 (Cond.mem_busy.2 (Or.inr h))
  have hempty : .consumer ∉ s.cb.notEmpty.woken := fun h => (hs.consumer hconsumer).2.2 (Cond.mem_busy.2 (Or.inr h))
  rintro a (hown | rfl)
  · cases a <;> simp [Act.own, step, St.call, ProdCons.step, hproducer, hconsumer, hfull, hempty] at hown ⊢
  · simp [step, (hs.producer hproducer).1]

theorem buffer_main_oneSlot : ∃ s, run 1 oneSlot = some s ∧ s.popped = [1, 2] ∧ s.popped = upTo s.sent ∧ s.i = 3 := by
  obtain ⟨s, hrun, heq⟩ := Option.map_eq_some_iff.1 oneSlot_ends
  obtain ⟨hpopped, hrest⟩ := Prod.mk.inj heq
  obtain ⟨hsent, hended⟩ := Prod.mk.inj hrest
  rw [Bool.and_eq_true] at hended
  have hstuck := stuck_of_ended (run_inv (by decide) hrun) hended.1 hended.2
  obtain ⟨-, -, hall, hlast⟩ := (buffer_main 1 (by decide) oneSlot s hrun).2.2.2 hstuck (by rw [hsent]; norm_num)
  exact ⟨s, hrun, hpopped, hall, by rw [hlast, hsent]; rfl⟩

end InterviewPrep.CircularQueue.ProdConsMain
