/-
The unbounded blocking queue of pureStorage/rateLimiter.cpp and threadPool/blockingQueueThreadPool.cpp (`BlockingQueue`), used
by any number of threads.

`push` and `shutdown` release the lock and notify afterwards, so a locked section and the notification that follows it are two
steps, and anything can happen between them: another thread may take the value, a consumer may look and fall asleep. `pop`
waits while the queue is empty and not shut down; a thread that falls asleep has released the lock, a woken one takes it again
and starts over with the predicate. The scheduler picks whom `notify_one` wakes, and sleepers may wake by themselves.

A run is a list of actions with what each of them did. Results, for every interleaving:
- `push_pop_order`: values come out in the order they went in, none lost, none twice; `pop` returns false only after
  `shutdown`, and neither that nor falling asleep happens while a value is there;
- `no_sleeper_forgotten`: if a thread sleeps, there are at least as many threads awake in `pop` and notifications to come as
  there are values; after `shutdown` and its notification nobody sleeps.
-/
import InterviewPrep.Core.Condition
import InterviewPrep.Core.Machine

namespace InterviewPrep.BlockingQueue

/-! ## Model -/

structure St (ι T : Type) where
  queue : List T
  /-- `done`, in rateLimiter.cpp `stop` -/
  done : Bool
  cv : Cond ι
  /-- threads that have left the locked section of `push` and not notified yet -/
  toOne : Finset ι
  /-- the same for `shutdown` -/
  toAll : Finset ι

/-- `wakes` is the thread that `notify_one` picks -/
inductive Act (ι T : Type) where
  | push (i : ι) (value : T)
  | notifyOne (i : ι) (wakes : Option ι)
  | pop (i : ι)
  | resume (i : ι)
  | shutdown (i : ι)
  | notifyAll (i : ι)
  | spurious (i : ι)
  deriving DecidableEq

inductive Out (T : Type) where
  | waits
  | pushed (v : T)
  | popped (v : T)
  | finished
  | quiet
  deriving DecidableEq

variable {ι T : Type} [DecidableEq ι]

namespace St

def init : St ι T := ⟨[], false, Cond.empty, ∅, ∅⟩

def setCv (s : St ι T) (c : Cond ι) : St ι T := { s with cv := c }

def push (s : St ι T) (i : ι) (value : T) : St ι T :=
  { s with queue := s.queue ++ [value], toOne := insert i s.toOne }

def notifyOne (s : St ι T) (i : ι) (c : Cond ι) : St ι T := { s with cv := c, toOne := s.toOne.erase i }

/-- `pop`, from the test of the predicate on -/
def pop (s : St ι T) (i : ι) : St ι T × Out T :=
  match s.queue with
  | v :: rest => ({ s with queue := rest, cv := s.cv.leave i }, .popped v)
  | [] => if s.done then (s.setCv (s.cv.leave i), .finished) else (s.setCv (s.cv.join i), .waits)

def shutdown (s : St ι T) (i : ι) : St ι T := { s with done := true, toAll := insert i s.toAll }

def notifyAll (s : St ι T) (i : ι) : St ι T := { s with cv := s.cv.notifyAll, toAll := s.toAll.erase i }

/-- the thread is not in a call -/
def idle (s : St ι T) (i : ι) : Prop := i ∉ s.cv.busy ∧ i ∉ s.toOne ∧ i ∉ s.toAll

instance (s : St ι T) (i : ι) : Decidable (s.idle i) := inferInstanceAs (Decidable (_ ∧ _))

end St

def step (s : St ι T) : Act ι T → Option (St ι T × Out T)
  | .push i v => if s.idle i then some (s.push i v, .pushed v) else none
  | .notifyOne i wakes =>
    if i ∈ s.toOne then (s.cv.notifyOne wakes).map fun c => (s.notifyOne i c, .quiet) else none
  | .pop i => if s.idle i then some (s.pop i) else none
  | .resume i => if i ∈ s.cv.woken then some (s.pop i) else none
  | .shutdown i => if s.idle i then some (s.shutdown i, .quiet) else none
  | .notifyAll i => if i ∈ s.toAll then some (s.notifyAll i, .quiet) else none
  | .spurious i => if i ∈ s.cv.waiting then some (s.setCv (s.cv.wake i), .quiet) else none

def run : List (Act ι T) → Option (St ι T × List (Out T)) := Machine.run step St.init

/-- values accepted by `push`, in order -/
def accepted (log : List (Out T)) : List T :=
  log.filterMap fun
    | .pushed v => some v
    | _ => none

/-- values delivered by `pop`, in order -/
def delivered (log : List (Out T)) : List T :=
  log.filterMap fun
    | .popped v => some v
    | _ => none

/-! ## What a step can do -/

inductive Effect (s : St ι T) : Act ι T → St ι T → Out T → Prop
  | pushed {i : ι} {v : T} (hidle : s.idle i) : Effect s (.push i v) (s.push i v) (.pushed v)
  | notified {i : ι} {wakes : Option ι} {c : Cond ι} (hi : i ∈ s.toOne) (hnotify : s.cv.notifyOne wakes = some c) :
      Effect s (.notifyOne i wakes) (s.notifyOne i c) .quiet
  | popped {a : Act ι T} {i : ι} {v : T} {rest : List T} (ha : a = .pop i ∧ s.idle i ∨ a = .resume i ∧ i ∈ s.cv.woken)
      (hqueue : s.queue = v :: rest) : Effect s a { s with queue := rest, cv := s.cv.leave i } (.popped v)
  | finished {a : Act ι T} {i : ι} (ha : a = .pop i ∧ s.idle i ∨ a = .resume i ∧ i ∈ s.cv.woken) (hqueue : s.queue = [])
      (hdone : s.done = true) : Effect s a (s.setCv (s.cv.leave i)) .finished
  | waits {a : Act ι T} {i : ι} (ha : a = .pop i ∧ s.idle i ∨ a = .resume i ∧ i ∈ s.cv.woken) (hqueue : s.queue = [])
      (hdone : s.done = false) : Effect s a (s.setCv (s.cv.join i)) .waits
  | shut {i : ι} (hidle : s.idle i) : Effect s (.shutdown i) (s.shutdown i) .quiet
  | notifiedAll {i : ι} (hi : i ∈ s.toAll) : Effect s (.notifyAll i) (s.notifyAll i) .quiet
  | spurious {i : ι} (hi : i ∈ s.cv.waiting) : Effect s (.spurious i) (s.setCv (s.cv.wake i)) .quiet

variable {s s' : St ι T} {a : Act ι T} {out : Out T} {i : ι}

theorem pop_effect (ha : a = .pop i ∧ s.idle i ∨ a = .resume i ∧ i ∈ s.cv.woken) (h : s.pop i = (s', out)) :
    Effect s a s' out := by
  unfold St.pop at h
  split at h
  · rename_i v rest hqueue
    obtain ⟨rfl, rfl⟩ := Prod.mk.inj h
    exact .popped ha hqueue
  · rename_i hqueue
    split_ifs at h with hdone
    · obtain ⟨rfl, rfl⟩ := Prod.mk.inj h
      exact .finished ha hqueue hdone
    · obtain ⟨rfl, rfl⟩ := Prod.mk.inj h
      exact .waits ha hqueue (Bool.eq_false_of_not_eq_true hdone)

theorem step_effect (h : step s a = some (s', out)) : Effect s a s' out := by
  cases a with
  | push i v =>
    rw [step] at h
    split_ifs at h with hidle
    obtain ⟨rfl, rfl⟩ := Prod.mk.inj (Option.some.inj h)
    exact .pushed hidle
  | notifyOne i wakes =>
    rw [step] at h
    split_ifs at h with hi
    obtain ⟨c, hnotify, heq⟩ := Option.map_eq_some_iff.1 h
    obtain ⟨rfl, rfl⟩ := Prod.mk.inj heq
    exact .notified hi hnotify
  | pop i =>
    rw [step] at h
    split_ifs at h with hidle
    exact pop_effect (Or.inl ⟨rfl, hidle⟩) (Option.some.inj h)
  | resume i =>
    rw [step] at h
    split_ifs at h with hwoken
    exact pop_effect (Or.inr ⟨rfl, hwoken⟩) (Option.some.inj h)
  | shutdown i =>
    rw [step] at h
    split_ifs at h with hidle
    obtain ⟨rfl, rfl⟩ := Prod.mk.inj (Option.some.inj h)
    exact .shut hidle
  | notifyAll i =>
    rw [step] at h
    split_ifs at h with hi
    obtain ⟨rfl, rfl⟩ := Prod.mk.inj (Option.some.inj h)
    exact .notifiedAll hi
  | spurious i =>
    rw [step] at h
    split_ifs at h with hi
    obtain ⟨rfl, rfl⟩ := Prod.mk.inj (Option.some.inj h)
    exact .spurious hi

/-! ## The queue -/

section Runs

variable {acts : List (Act ι T)} {log : List (Out T)}

/-- what is in the queue has been accepted and not delivered; `done` is set by `shutdown` only -/
structure Inv (s : St ι T) (acts : List (Act ι T)) (log : List (Out T)) : Prop where
  queue : accepted log = delivered log ++ s.queue
  done : s.done = true ↔ ∃ i, .shutdown i ∈ acts

omit [DecidableEq ι] in
theorem accepted_concat (log : List (Out T)) (o : Out T) : accepted (log ++ [o]) = accepted log ++ accepted [o] :=
  List.filterMap_append ..

omit [DecidableEq ι] in
theorem delivered_concat (log : List (Out T)) (o : Out T) : delivered (log ++ [o]) = delivered log ++ delivered [o] :=
  List.filterMap_append ..

omit [DecidableEq ι] in
/-- a step that moves no value -/
theorem Inv.quiet (h : Inv s acts log) (hqueue : s'.queue = s.queue) (hdone : s'.done = s.done)
    (ha : ∀ i, a ≠ .shutdown i) (haccepted : accepted [out] = []) (hdelivered : delivered [out] = []) :
    Inv s' (acts ++ [a]) (log ++ [out]) where
  queue := by rw [accepted_concat, delivered_concat, haccepted, hdelivered, hqueue, h.queue, List.append_nil, List.append_nil]
  done := by
    rw [hdone, h.done]
    simp only [List.mem_append, List.mem_singleton, (ha _).symm, or_false]

theorem step_inv (h : Inv s acts log) (hstep : step s a = some (s', out)) : Inv s' (acts ++ [a]) (log ++ [out]) := by
  cases step_effect hstep with
  | @pushed i v hidle =>
    refine ⟨?_, ?_⟩
    · rw [accepted_concat, delivered_concat, h.queue]
      simp [accepted, delivered, St.push]
    · exact h.done.trans (by simp)
  | @popped _ i v rest ha hqueue =>
    refine ⟨?_, ?_⟩
    · rw [accepted_concat, delivered_concat, h.queue, hqueue]
      simp [accepted, delivered]
    · have hkeep : ∀ j, a ≠ .shutdown j := by rcases ha with ⟨rfl, -⟩ | ⟨rfl, -⟩ <;> simp
      refine h.done.trans ?_
      simp only [List.mem_append, List.mem_singleton, (hkeep _).symm, or_false]
  | shut hidle =>
    refine ⟨?_, ?_⟩
    · rw [accepted_concat, delivered_concat, h.queue]
      simp [accepted, delivered, St.shutdown]
    · simp [St.shutdown]
  | notified => exact h.quiet rfl rfl (by simp) rfl rfl
  | finished ha => exact h.quiet rfl rfl (by rcases ha with ⟨rfl, -⟩ | ⟨rfl, -⟩ <;> simp) rfl rfl
  | waits ha => exact h.quiet rfl rfl (by rcases ha with ⟨rfl, -⟩ | ⟨rfl, -⟩ <;> simp) rfl rfl
  | notifiedAll => exact h.quiet rfl rfl (by simp) rfl rfl
  | spurious => exact h.quiet rfl rfl (by simp) rfl rfl

theorem run_inv (hrun : run acts = some (s, log)) : Inv s acts log :=
  Machine.run_inv (P := Inv) (fun _ _ _ _ _ _ h hstep => step_inv h hstep) hrun ⟨rfl, by simp [St.init]⟩

/-- **Order and shutdown.** In every run the values accepted are the values delivered, followed by those in the queue, in
order. The next step, whatever it is, makes a `pop` return false only if there was a `shutdown` and every value is out, and
puts a thread to sleep only if there was none and every value is out. -/
theorem push_pop_order (acts : List (Act ι T)) (s : St ι T) (log : List (Out T)) (hrun : run acts = some (s, log)) :
    accepted log = delivered log ++ s.queue ∧ ∀ a s' out, step s a = some (s', out) →
      (out = .finished → delivered log = accepted log ∧ ∃ i, .shutdown i ∈ acts) ∧
      (out = .waits → delivered log = accepted log ∧ ∀ i, .shutdown i ∉ acts) := by
  have h := run_inv hrun
  refine ⟨h.queue, fun a s' out hstep => ⟨?_, ?_⟩⟩
  · rintro rfl
    cases step_effect hstep with
    | finished ha hqueue hdone =>
      rw [h.queue, hqueue, List.append_nil]
      exact ⟨rfl, h.done.1 hdone⟩
  · rintro rfl
    cases step_effect hstep with
    | waits ha hqueue hdone =>
      rw [h.queue, hqueue, List.append_nil]
      refine ⟨rfl, fun i hi => ?_⟩
      rw [h.done.2 ⟨i, hi⟩] at hdone
      cases hdone

/-- thread 0 sleeps; its value is put in, and thread 2 takes it before the notification -/
def snatched : List (Act ℕ ℕ) := [.pop 0, .push 1 7, .pop 2, .notifyOne 1 (some 0), .resume 0]

theorem snatched_log : (run snatched).map Prod.snd = some [.waits, .pushed 7, .popped 7, .quiet, .waits] := by decide

theorem push_pop_order_snatched : ∃ s, run snatched = some (s, [.waits, .pushed 7, .popped 7, .quiet, .waits]) ∧
    accepted [.waits, .pushed 7, .popped 7, .quiet, .waits] =
      delivered [.waits, .pushed 7, .popped 7, .quiet, .waits] ++ s.queue := by
  obtain ⟨⟨s, log⟩, hrun, rfl⟩ := Option.map_eq_some_iff.1 snatched_log
  exact ⟨s, hrun, (push_pop_order snatched s _ hrun).1⟩

/-! ## Nobody is forgotten -/

/-- every value has a thread awake or a notification to come, as long as anyone sleeps; after `shutdown` a notification of
all is to come, or nobody sleeps -/
structure Attended (s : St ι T) : Prop where
  values : s.cv.Promised s.toOne.card s.queue.length
  shutdown : s.done = true → s.cv.waiting = ∅ ∨ s.toAll.Nonempty

omit [DecidableEq ι] in
/-- a set that only shrinks stays empty -/
theorem empty_or_of_subset {c c' : Cond ι} {p : Prop} (hsub : c'.waiting ⊆ c.waiting) (h : c.waiting = ∅ ∨ p) :
    c'.waiting = ∅ ∨ p := by
  rcases h with hempty | hp
  · exact Or.inl (Finset.subset_empty.1 (hempty ▸ hsub))
  · exact Or.inr hp

theorem step_attended (h : Attended s) (hstep : step s a = some (s', out)) : Attended s' := by
  cases step_effect hstep with
  | @pushed i v hidle =>
    refine ⟨?_, h.shutdown⟩
    have hcard : (insert i s.toOne).card = s.toOne.card + 1 := Finset.card_insert_of_notMem hidle.2.1
    have hlength : (s.queue ++ [v]).length = s.queue.length + 1 := by simp
    change s.cv.Promised (insert i s.toOne).card (s.queue ++ [v]).length
    rw [hcard, hlength]
    exact h.values.owe
  | @notified i wakes c hi hnotify =>
    refine ⟨?_, fun hdone => empty_or_of_subset (Cond.waiting_notifyOne hnotify) (h.shutdown hdone)⟩
    have hcard : s.toOne.card = (s.toOne.erase i).card + 1 := (Finset.card_erase_add_one hi).symm
    have hvalues := h.values
    rw [hcard] at hvalues
    exact hvalues.notifyOne hnotify
  | @popped _ i v rest ha hqueue =>
    refine ⟨?_, h.shutdown⟩
    have hvalues := h.values
    rw [hqueue, List.length_cons] at hvalues
    exact hvalues.leave i
  | @finished _ i ha hqueue hdone =>
    refine ⟨?_, h.shutdown⟩
    change (s.cv.leave i).Promised s.toOne.card s.queue.length
    rw [hqueue]
    exact Cond.promised_zero _ _
  | @waits _ i ha hqueue hdone =>
    refine ⟨?_, fun hset => ?_⟩
    · change (s.cv.join i).Promised s.toOne.card s.queue.length
      rw [hqueue]
      exact Cond.promised_zero _ _
    · rw [show s.done = true from hset] at hdone
      cases hdone
  | shut hidle => exact ⟨h.values, fun _ => Or.inr ⟨_, Finset.mem_insert_self _ _⟩⟩
  | notifiedAll hi =>
    refine ⟨fun hne => ?_, fun _ => Or.inl rfl⟩
    exact absurd hne Finset.not_nonempty_empty
  | @spurious i hi =>
    exact ⟨h.values.wake i, fun hdone => empty_or_of_subset (Finset.erase_subset i s.cv.waiting) (h.shutdown hdone)⟩

theorem run_attended (hrun : run acts = some (s, log)) : Attended s := by
  refine Machine.run_inv (P := fun s _ _ => Attended s) (fun _ _ _ _ _ _ h hstep => step_attended h hstep) hrun ⟨?_, ?_⟩
  · exact Cond.promised_zero _ _
  · exact fun _ => Or.inl rfl

/-- **No sleeper is forgotten.** In every run, while a thread sleeps, the threads that are awake in `pop` and the
notifications to come are at least as many as the values. After `shutdown`, nobody sleeps once its notification has come.
So where nobody is awake in `pop` and no notification is to come, a thread sleeps only if there is no value and there was no
`shutdown`. -/
theorem no_sleeper_forgotten (acts : List (Act ι T)) (s : St ι T) (log : List (Out T)) (hrun : run acts = some (s, log)) :
    (s.cv.waiting.Nonempty → s.queue.length ≤ s.cv.woken.card + s.toOne.card) ∧
      ((∃ i, .shutdown i ∈ acts) → s.toAll = ∅ → s.cv.waiting = ∅) ∧
      (s.cv.woken = ∅ → s.toOne = ∅ → s.toAll = ∅ → s.cv.waiting.Nonempty → s.queue = [] ∧ ∀ i, .shutdown i ∉ acts) := by
  have h := run_attended hrun
  have hdone := (run_inv hrun).done
  have hshut : (∃ i, .shutdown i ∈ acts) → s.toAll = ∅ → s.cv.waiting = ∅ := by
    intro hacts hall
    rcases h.shutdown (hdone.2 hacts) with hempty | hne
    · exact hempty
    · rw [hall] at hne
      exact absurd hne Finset.not_nonempty_empty
  refine ⟨h.values, hshut, fun hwoken hone hall hne => ⟨?_, fun i hi => ?_⟩⟩
  · have hle := h.values hne
    rw [hwoken, hone, Finset.card_empty] at hle
    exact List.eq_nil_of_length_eq_zero (Nat.le_zero.1 hle)
  · rw [hshut ⟨i, hi⟩ hall] at hne
    exact absurd hne Finset.not_nonempty_empty

/-- two threads sleep, two values come, and both notifications are still to come -/
def behind : List (Act ℕ ℕ) := [.pop 0, .pop 1, .push 2 7, .push 3 8]

theorem no_sleeper_forgotten_behind : ∃ s log, run behind = some (s, log) ∧ s.cv.waiting = {0, 1} ∧ s.toOne = {2, 3} ∧
    (s.cv.waiting.Nonempty → s.queue.length ≤ s.cv.woken.card + s.toOne.card) := by
  have hrun : ∃ s log, run behind = some (s, log) ∧ s.cv.waiting = {0, 1} ∧ s.toOne = {2, 3} := ⟨_, _, rfl, by decide, by decide⟩
  obtain ⟨s, log, hrun, hwaiting, hone⟩ := hrun
  exact ⟨s, log, hrun, hwaiting, hone, (no_sleeper_forgotten behind s log hrun).1⟩

end Runs

end InterviewPrep.BlockingQueue
