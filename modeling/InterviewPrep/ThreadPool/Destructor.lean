/-
The thread pool at work, and its destructor (threadPool/main_w_functor.cpp, main_w_function.cpp and main_w_lambda.cpp, whose
constructor takes a pool of no threads as it is).

`Effect` says what a step can do; the invariants and the bound below are derived from it.

- `no_worker_forgotten`: if a worker sleeps, there are at least as many woken workers and notifications under way as tasks in the
  queue;
- `destructor_returns`: for every interleaving, a run that stops stops after the destructor has joined all workers, and every task
  enqueued has been executed if there is a worker at all; without one, none is. The length of a run is bounded by the number of
  workers, of calls of `enqueue` and of spurious wakeups.
-/
import InterviewPrep.Core.Threads
import InterviewPrep.ThreadPool.Pool

namespace InterviewPrep.ThreadPool

variable {k : ℕ} {s s' : St k} {a : Act k} {i : Fin k}

/-! ## What a step can do -/

inductive Effect (s : St k) : Act k → St k → Prop
  | enqueued (hstop : s.stop = false) : Effect s .enqueue (s.push.setOwed (s.owed + 1))
  | notified {wakes : Option (Fin k)} {c : Cond (Fin k)} (howed : 0 < s.owed) (hnotify : s.condition.notifyOne wakes = some c) :
      Effect s (.notify wakes) ((s.setCondition c).setOwed (s.owed - 1))
  | enqueuedFrom {i : Fin k} {t : ℕ} (hi : s.worker i = .running t) : Effect s (.enqueueFrom i) (s.push.setWorker i (.notifying t))
  | notifiedFrom {i : Fin k} {t : ℕ} {wakes : Option (Fin k)} {c : Cond (Fin k)} (hi : s.worker i = .notifying t)
      (hnotify : s.condition.notifyOne wakes = some c) :
      Effect s (.notifyFrom i wakes) ((s.setCondition c).setWorker i (.running t))
  | sleeps {i : Fin k} (hi : s.canLook i) (hstop : s.stop = false) (htasks : s.tasks = []) :
      Effect s (.look i) ((s.setCondition (s.condition.join i)).setWorker i .asleep)
  | returns {i : Fin k} (hi : s.canLook i) (hstop : s.stop = true) (htasks : s.tasks = []) :
      Effect s (.look i) ((s.setCondition (s.condition.leave i)).setWorker i .returned)
  | takes {i : Fin k} {t : ℕ} {rest : List ℕ} (hi : s.canLook i) (htasks : s.tasks = t :: rest) :
      Effect s (.look i) (((s.setCondition (s.condition.leave i)).take t rest).setWorker i (.fetched t))
  | starts {i : Fin k} {t : ℕ} (hi : s.worker i = .fetched t) : Effect s (.start i) ((s.logStart t).setWorker i (.running t))
  | finishes {i : Fin k} {t : ℕ} (hi : s.worker i = .running t) : Effect s (.finish i) ((s.logFinish t).setWorker i .ready)
  | wakes {i : Fin k} (hi : i ∈ s.condition.waiting) : Effect s (.spurious i) (s.setCondition (s.condition.wake i))
  | stops (hd : s.destructor = .notCalled) : Effect s .setStop (s.setStop.setDestructor .stopped)
  | notifiesAll (hd : s.destructor = .stopped) : Effect s .notifyAll ((s.setCondition s.condition.notifyAll).setDestructor .joining)
  | joins (hd : s.destructor = .joining) (hall : ∀ i, s.worker i = .returned) : Effect s .join (s.setDestructor .done)

theorem look_effect (hi : s.canLook i) : Effect s (.look i) (s.look i) := by
  unfold St.look
  split_ifs with hidle
  · rw [Bool.and_eq_true, Bool.not_eq_true', List.isEmpty_iff] at hidle
    exact .sleeps hi hidle.1 hidle.2
  · dsimp only
    split
    · rename_i htasks
      have hempty : s.tasks = [] := htasks
      refine .returns hi ?_ hempty
      rw [hempty] at hidle
      simpa using hidle
    · rename_i t rest htasks
      exact .takes hi htasks

theorem step_effect (h : step s a = some s') : Effect s a s' := by
  cases a with
  | enqueue =>
    obtain ⟨hstop, heq⟩ := Option.ite_none_right_eq_some.1 h
    obtain rfl := Option.some.inj heq
    exact .enqueued hstop
  | notify wakes =>
    obtain ⟨howed, hmap⟩ := Option.ite_none_right_eq_some.1 h
    obtain ⟨c, hnotify, rfl⟩ := Option.map_eq_some_iff.1 hmap
    exact .notified howed hnotify
  | enqueueFrom i =>
    rw [step] at h
    split at h
    · rename_i t hi
      obtain rfl := Option.some.inj h
      exact .enqueuedFrom hi
    · cases h
  | notifyFrom i wakes =>
    rw [step] at h
    split at h
    · rename_i t hi
      obtain ⟨c, hnotify, rfl⟩ := Option.map_eq_some_iff.1 h
      exact .notifiedFrom hi hnotify
    · cases h
  | look i =>
    obtain ⟨hi, heq⟩ := Option.ite_none_right_eq_some.1 h
    obtain rfl := Option.some.inj heq
    exact look_effect hi
  | start i =>
    rw [step] at h
    split at h
    · rename_i t hi
      obtain rfl := Option.some.inj h
      exact .starts hi
    · cases h
  | finish i =>
    rw [step] at h
    split at h
    · rename_i t hi
      obtain rfl := Option.some.inj h
      exact .finishes hi
    · cases h
  | spurious i =>
    obtain ⟨hi, heq⟩ := Option.ite_none_right_eq_some.1 h
    obtain rfl := Option.some.inj heq
    exact .wakes hi
  | setStop =>
    obtain ⟨hd, heq⟩ := Option.ite_none_right_eq_some.1 h
    obtain rfl := Option.some.inj heq
    exact .stops hd
  | notifyAll =>
    obtain ⟨hd, heq⟩ := Option.ite_none_right_eq_some.1 h
    obtain rfl := Option.some.inj heq
    exact .notifiesAll hd
  | join =>
    obtain ⟨⟨hd, hall⟩, heq⟩ := Option.ite_none_right_eq_some.1 h
    obtain rfl := Option.some.inj heq
    exact .joins hd hall

/-! ## Who sleeps -/

/-- notifications that a task has yet to make -/
def Worker.owes : Worker → ℕ
  | .notifying _ => 1
  | _ => 0

structure Awake (s : St k) : Prop where
  asleep : ∀ i, s.worker i = .asleep ↔ i ∈ s.condition.busy
  stop : s.stop = true ↔ s.destructor ≠ .notCalled
  back : s.destructor = .done → ∀ i, s.worker i = .returned
  nobody : s.destructor = .joining ∨ s.destructor = .done → s.condition.waiting = ∅
  promised : s.condition.Promised (s.owed + ∑ i, (s.worker i).owes) s.tasks.length

theorem init_awake (k : ℕ) : Awake (St.init k) where
  asleep i := by simp [St.init, Cond.busy, Cond.empty]
  stop := by simp [St.init]
  back h := by cases h
  nobody h := by simp [St.init] at h
  promised := Cond.promised_zero _ _

theorem Awake.leave (h : Awake s) (hi : s.canLook i) {x : Worker} (hx : x ≠ .asleep) (j : Fin k) :
    Function.update s.worker i x j = .asleep ↔ j ∈ (s.condition.leave i).busy := by
  rw [Cond.mem_busy_leave]
  rcases eq_or_ne j i with rfl | hne
  · rw [Function.update_self]
    refine iff_of_false hx ?_
    rintro (hwaiting | ⟨hne, -⟩)
    · rcases hi with hready | ⟨-, hwoken⟩
      · have hasleep := (h.asleep j).2 (Cond.mem_busy.2 (Or.inl hwaiting))
        rw [hready] at hasleep
        cases hasleep
      · exact Finset.disjoint_left.1 s.condition.disjoint hwaiting hwoken
    · exact hne rfl
  · rw [Function.update_of_ne hne, h.asleep j, Cond.mem_busy]
    simp [hne]

/-- a worker that is awake moves on -/
theorem Awake.move (h : Awake s) {x : Worker} (hi : s.worker i ≠ .asleep) (hx : x ≠ .asleep) (j : Fin k) :
    Function.update s.worker i x j = .asleep ↔ j ∈ s.condition.busy := by
  rcases eq_or_ne j i with rfl | hne
  · rw [Function.update_self]
    exact iff_of_false hx fun hmem => hi ((h.asleep j).2 hmem)
  · rw [Function.update_of_ne hne]
    exact h.asleep j

/-- who has to be awake does not return while the destructor is done -/
theorem Awake.not_done (h : Awake s) (hi : s.worker i ≠ .returned) : s.destructor ≠ .done := fun hd => hi (h.back hd i)

theorem canLook_not_returned (hi : s.canLook i) : s.worker i ≠ .returned := by
  rcases hi with hi | ⟨hi, -⟩ <;> rw [hi] <;> simp

/-- a worker that is awake moves on and owes as much as before -/
theorem Awake.go (hs : Awake s) {x : Worker} (hawake : s.worker i ≠ .asleep) (hreturned : s.worker i ≠ .returned)
    (hx : x ≠ .asleep) (howes : x.owes = (s.worker i).owes) : Awake (s.setWorker i x) := by
  have hsum := sum_update Worker.owes s.worker i x
  rw [howes, Nat.add_right_cancel_iff] at hsum
  refine { hs with asleep := hs.move hawake hx, back := fun hd => absurd hd (hs.not_done hreturned), promised := ?_ }
  change s.condition.Promised (s.owed + ∑ j, (Function.update s.worker i x j).owes) s.tasks.length
  rw [hsum]
  exact hs.promised

theorem step_awake (h : step s a = some s') (hs : Awake s) : Awake s' := by
  have hpromised := hs.promised
  cases step_effect h with
  | enqueued hstop =>
    refine { hs with promised := ?_ }
    change s.condition.Promised (s.owed + 1 + ∑ i, (s.worker i).owes) (s.tasks ++ [s.enqueued]).length
    rw [List.length_append, List.length_singleton, Nat.add_right_comm]
    exact hpromised.owe
  | @notified wakes c howed hnotify =>
    refine { hs with asleep := fun i => ?_, nobody := fun hd => ?_, promised := ?_ }
    · change s.worker i = .asleep ↔ i ∈ c.busy
      rw [Cond.busy_notifyOne hnotify]
      exact hs.asleep i
    · exact Finset.subset_empty.1 (hs.nobody hd ▸ Cond.waiting_notifyOne hnotify)
    · change c.Promised (s.owed - 1 + ∑ i, (s.worker i).owes) s.tasks.length
      refine Cond.Promised.notifyOne ?_ hnotify
      rwa [Nat.add_right_comm, Nat.sub_add_cancel howed]
  | @enqueuedFrom i t hi =>
    have hawake : s.worker i ≠ .asleep := by rw [hi]; simp
    have hreturned : s.worker i ≠ .returned := by rw [hi]; simp
    have hsum := sum_update Worker.owes s.worker i (.notifying t)
    rw [hi] at hsum
    refine { hs with asleep := hs.move hawake (by simp), back := fun hd => absurd hd (hs.not_done hreturned), promised := ?_ }
    change s.condition.Promised (s.owed + ∑ j, (Function.update s.worker i (.notifying t) j).owes) (s.tasks ++ [s.enqueued]).length
    have hone : ∑ j, (Function.update s.worker i (.notifying t) j).owes = ∑ j, (s.worker j).owes + 1 := hsum
    rw [hone, List.length_append, List.length_singleton]
    exact hpromised.owe
  | @notifiedFrom i t wakes c hi hnotify =>
    have hawake : s.worker i ≠ .asleep := by rw [hi]; simp
    have hreturned : s.worker i ≠ .returned := by rw [hi]; simp
    have hsum := sum_update Worker.owes s.worker i (.running t)
    rw [hi] at hsum
    refine { hs with
      asleep := fun j => ?_, back := fun hd => absurd hd (hs.not_done hreturned), nobody := fun hd => ?_, promised := ?_ }
    · change Function.update s.worker i (.running t) j = .asleep ↔ j ∈ c.busy
      rw [Cond.busy_notifyOne hnotify]
      exact hs.move hawake (by simp) j
    · exact Finset.subset_empty.1 (hs.nobody hd ▸ Cond.waiting_notifyOne hnotify)
    · change c.Promised (s.owed + ∑ j, (Function.update s.worker i (.running t) j).owes) s.tasks.length
      refine Cond.Promised.notifyOne ?_ hnotify
      have hone : ∑ j, (Function.update s.worker i (.running t) j).owes + 1 = ∑ j, (s.worker j).owes := hsum
      rwa [Nat.add_assoc, hone]
  | @sleeps i hi hstop htasks =>
    have hopen : s.destructor = .notCalled := by
      by_contra hd
      rw [hs.stop.2 hd] at hstop
      cases hstop
    refine { hs with asleep := fun j => ?_, back := fun hd => ?_, nobody := fun hd => ?_, promised := ?_ }
    · change Function.update s.worker i .asleep j = .asleep ↔ j ∈ (s.condition.join i).busy
      rw [Cond.busy_join, Finset.mem_insert]
      rcases eq_or_ne j i with rfl | hne
      · rw [Function.update_self]
        exact iff_of_true rfl (Or.inl rfl)
      · rw [Function.update_of_ne hne, hs.asleep j, or_iff_right hne]
    · exact absurd (hopen.symm.trans hd) (by simp)
    · rcases hd with hd | hd <;> exact absurd (hopen.symm.trans hd) (by simp)
    · change (s.condition.join i).Promised _ s.tasks.length
      rw [htasks]
      exact Cond.promised_zero _ _
  | @returns i hi hstop htasks =>
    refine { hs with asleep := hs.leave hi (by simp), back := fun hd => ?_, promised := ?_ }
    · exact absurd hd (hs.not_done (canLook_not_returned hi))
    · change (s.condition.leave i).Promised _ s.tasks.length
      rw [htasks]
      exact Cond.promised_zero _ _
  | @takes i t rest hi htasks =>
    have hsum := sum_update Worker.owes s.worker i (.fetched t)
    have hnone : (s.worker i).owes = 0 := by rcases hi with hi | ⟨hi, -⟩ <;> rw [hi] <;> rfl
    have hsame : ∑ j, (Function.update s.worker i (.fetched t) j).owes = ∑ j, (s.worker j).owes := by
      rw [hnone] at hsum
      exact hsum
    refine { hs with asleep := hs.leave hi (by simp), back := fun hd => ?_, promised := ?_ }
    · exact absurd hd (hs.not_done (canLook_not_returned hi))
    · change (s.condition.leave i).Promised (s.owed + ∑ j, (Function.update s.worker i (.fetched t) j).owes) rest.length
      rw [hsame]
      rw [htasks] at hpromised
      exact hpromised.leave i
  | @starts i t hi =>
    exact { hs.go (x := .running t) (by rw [hi]; simp) (by rw [hi]; simp) (by simp) (by rw [hi]; rfl) with }
  | @finishes i t hi =>
    exact { hs.go (x := .ready) (by rw [hi]; simp) (by rw [hi]; simp) (by simp) (by rw [hi]; rfl) with }
  | @wakes i hi =>
    refine { hs with asleep := fun j => ?_, nobody := fun hd => ?_, promised := hpromised.wake i }
    · change s.worker j = .asleep ↔ j ∈ (s.condition.wake i).busy
      rw [Cond.busy_wake hi]
      exact hs.asleep j
    · rw [hs.nobody hd] at hi
      exact absurd hi (Finset.notMem_empty i)
  | stops hd =>
    refine { hs with stop := by simp [St.setDestructor, St.setStop], back := fun hd' => (by cases hd'), nobody := fun hor => ?_ }
    rcases hor with hor | hor <;> cases hor
  | notifiesAll hd =>
    refine { hs with
      asleep := fun j => ?_, stop := ?_, back := fun hd' => (by cases hd'), nobody := fun _ => rfl
      promised := fun hne => absurd hne Finset.not_nonempty_empty }
    · change s.worker j = .asleep ↔ j ∈ s.condition.notifyAll.busy
      rw [Cond.busy_notifyAll]
      exact hs.asleep j
    · exact iff_of_true (hs.stop.2 (by rw [hd]; simp)) (by simp [St.setDestructor])
  | joins hd hall =>
    refine { hs with stop := ?_, back := fun _ => hall, nobody := fun _ => hs.nobody (Or.inl hd) }
    exact iff_of_true (hs.stop.2 (by rw [hd]; simp)) (by simp [St.setDestructor])

/-- **No worker sleeps on a task.** For every number of workers and every interleaving, in every state: if a worker sleeps, the
tasks in the queue are no more than the woken workers and the notifications under way together. -/
theorem no_worker_forgotten {k : ℕ} {acts : List (Act k)} {s : St k} (hrun : Machine.exec step (St.init k) acts = some s)
    (hsleeper : ∃ i, s.worker i = .asleep ∧ i ∉ s.condition.woken) :
    s.tasks.length ≤ s.condition.woken.card + (s.owed + ∑ i, (s.worker i).owes) := by
  have hs : Awake s := Machine.exec_inv (P := Awake) (fun _ _ _ h => step_awake h) hrun (init_awake k)
  obtain ⟨i, hi, hwoken⟩ := hsleeper
  exact hs.promised ⟨i, (Cond.mem_busy.1 ((hs.asleep i).1 hi)).resolve_right hwoken⟩

/-- the task is in the queue, and its notification to come -/
theorem no_worker_forgotten_owed : ∃ s, Machine.exec step (St.init 1) [.look (Fin.last 0), .enqueue] = some s ∧ s.tasks = [0] ∧
    s.owed = 1 ∧ s.tasks.length ≤ s.condition.woken.card + (s.owed + ∑ i, (s.worker i).owes) :=
  ⟨_, rfl, rfl, rfl,
    no_worker_forgotten (show Machine.exec step (St.init 1) [.look (Fin.last 0), .enqueue] = some _ from rfl)
      ⟨Fin.last 0, rfl, by decide⟩⟩

/-! ## Where runs stop -/

/-- steps that a worker has before it, the next look included -/
def Worker.rank : Worker → ℕ
  | .ready => 1
  | .fetched _ => 3
  | .running _ => 2
  | .notifying _ => 4
  | .asleep | .returned => 0

def Destructor.rank (k : ℕ) : Destructor → ℕ
  | .notCalled => k + 3
  | .stopped => k + 2
  | .joining => 1
  | .done => 0

/-- a bound on the steps to come: a task takes three of them, a notification one, and one of the worker that it wakes -/
def potential (s : St k) : ℕ :=
  3 * s.tasks.length + 2 * s.owed + s.condition.woken.card + ∑ i, (s.worker i).rank + s.destructor.rank k

/-- what a call of `enqueue` and a spurious wakeup add -/
def Act.extra : Act k → ℕ
  | .enqueue | .enqueueFrom _ => 6
  | .spurious _ => 2
  | _ => 0

theorem woken_notifyOne {c c' : Cond (Fin k)} {w : Option (Fin k)} (h : c.notifyOne w = some c') :
    c'.woken.card ≤ c.woken.card + 1 := by
  rcases Cond.notifyOne_cases h with ⟨-, rfl⟩ | ⟨i, -, rfl⟩
  · exact Nat.le_succ _
  · exact Finset.card_insert_le _ _

/-- a worker that looks has a step less, or is one woken worker less -/
theorem look_rank (hi : s.canLook i) (x : Worker) :
    (s.condition.woken.erase i).card + ∑ j, (Function.update s.worker i x j).rank + 1 ≤
      s.condition.woken.card + ∑ j, (s.worker j).rank + x.rank := by
  have hsum := sum_update Worker.rank s.worker i x
  rcases hi with hready | ⟨hasleep, hwoken⟩
  · have hone : (s.worker i).rank = 1 := by rw [hready]; rfl
    have hle : (s.condition.woken.erase i).card ≤ s.condition.woken.card := Finset.card_erase_le
    omega
  · have hzero : (s.worker i).rank = 0 := by rw [hasleep]; rfl
    have hcard : (s.condition.woken.erase i).card + 1 = s.condition.woken.card := Finset.card_erase_add_one hwoken
    omega

theorem step_potential (h : step s a = some s') (hs : Awake s) : Awake s' ∧ potential s' + 1 ≤ potential s + a.extra := by
  refine ⟨step_awake h hs, ?_⟩
  cases step_effect h with
  | enqueued hstop =>
    simp only [potential, St.setOwed, St.push, Act.extra, List.length_append, List.length_singleton]
    omega
  | @notified wakes c howed hnotify =>
    have hwoken := woken_notifyOne hnotify
    simp only [potential, St.setOwed, St.setCondition, Act.extra]
    omega
  | @enqueuedFrom i t hi =>
    have hsum := sum_update Worker.rank s.worker i (.notifying t)
    rw [hi] at hsum
    have htwo : (Worker.running t).rank = 2 := rfl
    have hfour : (Worker.notifying t).rank = 4 := rfl
    simp only [potential, St.setWorker, St.push, Act.extra, List.length_append, List.length_singleton]
    omega
  | @notifiedFrom i t wakes c hi hnotify =>
    have hwoken := woken_notifyOne hnotify
    have hsum := sum_update Worker.rank s.worker i (.running t)
    rw [hi] at hsum
    have htwo : (Worker.running t).rank = 2 := rfl
    have hfour : (Worker.notifying t).rank = 4 := rfl
    simp only [potential, St.setWorker, St.setCondition, Act.extra]
    omega
  | @sleeps i hi hstop htasks =>
    have hrank := look_rank hi .asleep
    have hzero : Worker.asleep.rank = 0 := rfl
    simp only [potential, St.setWorker, St.setCondition, Cond.join, Act.extra]
    omega
  | @returns i hi hstop htasks =>
    have hrank := look_rank hi .returned
    have hzero : Worker.returned.rank = 0 := rfl
    simp only [potential, St.setWorker, St.setCondition, Cond.leave, Act.extra]
    omega
  | @takes i t rest hi htasks =>
    have hrank := look_rank hi (.fetched t)
    have hthree : (Worker.fetched t).rank = 3 := rfl
    simp only [potential, St.setWorker, St.setCondition, St.take, Cond.leave, Act.extra, htasks, List.length_cons]
    omega
  | @starts i t hi =>
    have hsum := sum_update Worker.rank s.worker i (.running t)
    rw [hi] at hsum
    have htwo : (Worker.running t).rank = 2 := rfl
    have hthree : (Worker.fetched t).rank = 3 := rfl
    simp only [potential, St.setWorker, St.logStart, Act.extra]
    omega
  | @finishes i t hi =>
    have hsum := sum_update Worker.rank s.worker i .ready
    rw [hi] at hsum
    have htwo : (Worker.running t).rank = 2 := rfl
    have hone : Worker.ready.rank = 1 := rfl
    simp only [potential, St.setWorker, St.logFinish, Act.extra]
    omega
  | @wakes i hi =>
    have hcard : (insert i s.condition.woken).card ≤ s.condition.woken.card + 1 := Finset.card_insert_le _ _
    simp only [potential, St.setCondition, Cond.wake, Act.extra]
    omega
  | stops hd =>
    simp only [potential, St.setDestructor, St.setStop, hd, Destructor.rank, Act.extra]
    omega
  | notifiesAll hd =>
    have hcard : (s.condition.waiting ∪ s.condition.woken).card ≤ k := by
      simpa using Finset.card_le_univ (s.condition.waiting ∪ s.condition.woken)
    simp only [potential, St.setDestructor, St.setCondition, hd, Destructor.rank, Cond.notifyAll, Act.extra]
    omega
  | joins hd hall =>
    simp only [potential, St.setDestructor, hd, Destructor.rank, Act.extra]
    omega

theorem potential_init (k : ℕ) : potential (St.init k) = 2 * k + 3 := by
  simp only [potential, St.init, Cond.empty, Worker.rank, Destructor.rank, List.length_nil, Finset.card_empty, Finset.sum_const,
    Finset.card_univ, Fintype.card_fin, smul_eq_mul]
  omega

/-- without workers nothing is taken -/
theorem step_idle {s s' : St 0} {a : Act 0} (h : step s a = some s') (hs : s.tasks = List.range s.enqueued ∧ s.finished = []) :
    s'.tasks = List.range s'.enqueued ∧ s'.finished = [] := by
  obtain ⟨htasks, hfinished⟩ := hs
  cases step_effect h with
  | enqueued hstop =>
    refine ⟨?_, hfinished⟩
    change s.tasks ++ [s.enqueued] = List.range (s.enqueued + 1)
    rw [htasks, List.range_succ]
  | notified | stops | notifiesAll | joins => exact ⟨htasks, hfinished⟩
  | enqueuedFrom | notifiedFrom | sleeps | returns | takes | starts | finishes | wakes => exact Fin.elim0 (by assumption)

/-- a state from which only a spurious wakeup can lead on -/
def Stuck (s : St k) : Prop := ∀ a, (∀ i, a ≠ .spurious i) → step s a = none

/-- a worker can go on, unless it has returned or sleeps -/
theorem Stuck.worker (h : Stuck s) (hs : Awake s) (hi : i ∉ s.condition.waiting) : s.worker i = .returned := by
  have hlook : ¬s.canLook i := fun hlook => by
    have hnone := h (.look i) (by simp)
    rw [step, if_pos hlook] at hnone
    cases hnone
  cases hw : s.worker i with
  | ready => exact absurd (Or.inl hw) hlook
  | asleep => exact absurd (Or.inr ⟨hw, (Cond.mem_busy.1 ((hs.asleep i).1 hw)).resolve_left hi⟩) hlook
  | fetched t =>
    have hnone := h (.start i) (by simp)
    rw [step, hw] at hnone
    cases hnone
  | running t =>
    have hnone := h (.finish i) (by simp)
    rw [step, hw] at hnone
    cases hnone
  | notifying t =>
    obtain ⟨w, c, hnotify⟩ := s.condition.exists_notifyOne
    have hnone := h (.notifyFrom i w) (by simp)
    rw [step, hw] at hnone
    dsimp only at hnone
    rw [hnotify] at hnone
    cases hnone
  | returned => rfl

theorem Stuck.done (h : Stuck s) (hs : Awake s) : s.destructor = .done := by
  cases hd : s.destructor with
  | notCalled =>
    have hnone := h .setStop (by simp)
    rw [step, if_pos hd] at hnone
    cases hnone
  | stopped =>
    have hnone := h .notifyAll (by simp)
    rw [step, if_pos hd] at hnone
    cases hnone
  | joining =>
    have hall : ∀ i, s.worker i = .returned := fun i => h.worker hs (by rw [hs.nobody (Or.inl hd)]; exact Finset.notMem_empty i)
    have hnone := h .join (by simp)
    rw [step, if_pos ⟨hd, hall⟩] at hnone
    cases hnone
  | done => rfl

/-- nothing is left to be done when the destructor is, but for notifications under way -/
theorem stuck_of_done (hs : Awake s) (hd : s.destructor = .done) (howed : s.owed = 0) : Stuck s := by
  intro a ha
  have hstop : s.stop = true := hs.stop.2 (by rw [hd]; simp)
  have hall := hs.back hd
  by_contra hne
  obtain ⟨s', hstep⟩ := Option.ne_none_iff_exists'.1 hne
  cases step_effect hstep with
  | enqueued h =>
    rw [hstop] at h
    cases h
  | notified h _ => exact absurd howed (Nat.pos_iff_ne_zero.1 h)
  | enqueuedFrom hi | notifiedFrom hi _ | starts hi | finishes hi =>
    rw [hall _] at hi
    cases hi
  | sleeps hi | returns hi | takes hi => exact canLook_not_returned hi (hall _)
  | wakes hi => exact ha _ rfl
  | stops h | notifiesAll h | joins h =>
    rw [hd] at h
    cases h

/-- **The destructor returns.** For every number of workers and every interleaving: the length of a run is bounded by the number
of workers, of calls of `enqueue` and of spurious wakeups; where it stops, all workers have returned and the destructor is done,
and every task enqueued has been executed exactly once, if there is a worker. A pool without workers executes none, and its
destructor returns all the same. -/
theorem destructor_returns {acts : List (Act k)} (hrun : Machine.exec step (St.init k) acts = some s) :
    acts.length ≤ 2 * k + 3 + (acts.map Act.extra).sum ∧ (Stuck s →
      s.destructor = .done ∧ (∀ i, s.worker i = .returned) ∧ (0 < k → s.tasks = [] ∧ s.finished.Perm (List.range s.enqueued)) ∧
        (k = 0 → s.tasks = List.range s.enqueued ∧ s.finished = [])) := by
  constructor
  · have hle := Machine.exec_length_le (fun _ _ _ h => step_potential h) hrun (init_awake k)
    rw [potential_init] at hle
    exact (Nat.le_add_right _ _).trans hle
  · intro hstuck
    have hs : Awake s := Machine.exec_inv (P := Awake) (fun _ _ _ h => step_awake h) hrun (init_awake k)
    have hdone := hstuck.done hs
    have hall := hs.back hdone
    refine ⟨hdone, hall, fun hk => ?_, fun hk => ?_⟩
    · have hinv : Inv s := Machine.exec_inv (step_inv hk) hrun (init_inv k)
      have hempty : s.tasks = [] := by
        by_contra hne
        obtain ⟨i, hi⟩ := hinv.lookout hne
        exact hi (hall i)
      have horder := hinv.order
      have hheld := hinv.held
      have hactive := hinv.active
      rw [hempty, List.append_nil] at horder
      rw [among_none fun i => by rw [hall i]; rfl, List.nil_append] at hheld hactive
      rw [horder] at hheld
      exact ⟨hempty, hactive.trans hheld⟩
    · subst hk
      exact Machine.exec_inv (P := fun s : St 0 => s.tasks = List.range s.enqueued ∧ s.finished = [])
        (fun _ _ _ h => step_idle h) hrun ⟨rfl, rfl⟩

/-- numerals of `Fin 2` -/
local instance neZeroTwo : NeZero 2 := ⟨two_ne_zero⟩

/-- two workers: worker 1 is woken for a task that worker 0 takes, and executes the one that this task enqueues -/
def handedOn : List (Act 2) :=
  [.look 1, .enqueue, .notify (some 1), .look 0, .look 1, .start 0, .enqueueFrom 0, .notifyFrom 0 (some 1), .finish 0, .setStop,
    .notifyAll, .look 1, .look 0, .start 1, .finish 1, .look 1, .join]

theorem handedOn_done : (Machine.exec step (St.init 2) handedOn).map (fun s => (s.destructor, s.owed, s.enqueued)) =
    some (.done, 0, 2) := rfl

theorem destructor_returns_handedOn : ∃ s, Machine.exec step (St.init 2) handedOn = some s ∧ Stuck s ∧
    (∀ i, s.worker i = .returned) ∧ s.tasks = [] ∧ s.finished.Perm [0, 1] := by
  obtain ⟨s, hrun, heq⟩ := Option.map_eq_some_iff.1 handedOn_done
  obtain ⟨hd, hrest⟩ := Prod.mk.inj heq
  obtain ⟨howed, henqueued⟩ := Prod.mk.inj hrest
  have hs : Awake s := Machine.exec_inv (P := Awake) (fun _ _ _ h => step_awake h) hrun (init_awake 2)
  have hstuck := stuck_of_done hs hd howed
  obtain ⟨-, hall, hdone, -⟩ := (destructor_returns hrun).2 hstuck
  obtain ⟨htasks, hfinished⟩ := hdone two_pos
  rw [henqueued] at hfinished
  exact ⟨s, hrun, hstuck, hall, htasks, hfinished⟩

end InterviewPrep.ThreadPool
