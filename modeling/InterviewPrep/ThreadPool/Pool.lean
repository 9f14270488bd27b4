/-
The thread pool (threadPool/main_w_functor.cpp; main_w_function.cpp has the same class).

Tasks are numbered in the order in which `enqueue` puts them into the queue; what a task does is up to the schedule, which
may let a running task enqueue more. Locked sections are single steps, calls of `notify_one` and `notify_all` are steps of
their own after the unlock, a waiting worker may wake by itself at any time. Callers from outside enqueue only as long as
the destructor has not set `stop`.

A worker locks and looks (`look`): it sleeps if there is nothing to do and no `stop`, it returns if there is nothing to do
and `stop`, else it takes the first task; it then runs the task without the lock and starts over.

Every task is in one of four places: queued, taken by a worker, run by a worker, finished. `Inv` says that the lists and the
workers account for each task exactly once, in queue order, and that a task in the queue has a worker that has not returned.

`pool_correct`: for every number of threads and every interleaving, tasks are taken in order, none is executed twice, no
worker returns before `stop`, and when all have returned every task enqueued has been executed exactly once.
-/
import InterviewPrep.Core.Condition
import InterviewPrep.Core.Machine

namespace InterviewPrep.ThreadPool

/-! ## Model -/

/-- `ready` is before the lock; `notifying` is in a call of `enqueue` made by the task it runs -/
inductive Worker where
  | ready
  | asleep
  | fetched (t : ℕ)
  | running (t : ℕ)
  | notifying (t : ℕ)
  | returned
  deriving DecidableEq

inductive Destructor where
  | notCalled
  | stopped
  | joining
  | done
  deriving DecidableEq

/-- the members, where every thread is, and what happened so far -/
structure St (k : ℕ) where
  tasks : List ℕ
  stop : Bool
  condition : Cond (Fin k)
  worker : Fin k → Worker
  destructor : Destructor
  /-- calls of `enqueue` from outside that have yet to notify -/
  owed : ℕ
  enqueued : ℕ
  taken : List ℕ
  started : List ℕ
  finished : List ℕ

/-- `wakes` is the worker that `notify_one` picks -/
inductive Act (k : ℕ) where
  | enqueue
  | notify (wakes : Option (Fin k))
  | enqueueFrom (i : Fin k)
  | notifyFrom (i : Fin k) (wakes : Option (Fin k))
  | look (i : Fin k)
  | start (i : Fin k)
  | finish (i : Fin k)
  | spurious (i : Fin k)
  | setStop
  | notifyAll
  | join

/-- the constructor replaces 0 by 1 -/
def poolSize (numThreads : ℕ) : ℕ := if numThreads = 0 then 1 else numThreads

namespace St

variable {k : ℕ}

def init (k : ℕ) : St k := ⟨[], false, Cond.empty, fun _ => .ready, .notCalled, 0, 0, [], [], []⟩

def setWorker (s : St k) (i : Fin k) (w : Worker) : St k := { s with worker := Function.update s.worker i w }

def setCondition (s : St k) (c : Cond (Fin k)) : St k := { s with condition := c }

/-- the locked section of `enqueue` -/
def push (s : St k) : St k := { s with tasks := s.tasks ++ [s.enqueued], enqueued := s.enqueued + 1 }

def take (s : St k) (t : ℕ) (rest : List ℕ) : St k := { s with tasks := rest, taken := s.taken ++ [t] }

/-- the locked section of `workerThread`, from the test of its loop on -/
def look (s : St k) (i : Fin k) : St k :=
  if !s.stop && s.tasks.isEmpty then (s.setCondition (s.condition.join i)).setWorker i .asleep
  else
    let s := s.setCondition (s.condition.leave i)
    match s.tasks with
    | [] => s.setWorker i .returned
    | t :: rest => (s.take t rest).setWorker i (.fetched t)

def setOwed (s : St k) (owed : ℕ) : St k := { s with owed := owed }

def logStart (s : St k) (t : ℕ) : St k := { s with started := s.started ++ [t] }

def logFinish (s : St k) (t : ℕ) : St k := { s with finished := s.finished ++ [t] }

def setDestructor (s : St k) (d : Destructor) : St k := { s with destructor := d }

def setStop (s : St k) : St k := { s with stop := true }

/-- the worker is before the lock, or woken -/
def canLook (s : St k) (i : Fin k) : Prop := s.worker i = .ready ∨ (s.worker i = .asleep ∧ i ∈ s.condition.woken)

instance (s : St k) (i : Fin k) : Decidable (s.canLook i) := inferInstanceAs (Decidable (_ ∨ _))

end St

def step {k : ℕ} (s : St k) : Act k → Option (St k)
  | .enqueue => if s.stop = false then some (s.push.setOwed (s.owed + 1)) else none
  | .notify wakes =>
    if 0 < s.owed then (s.condition.notifyOne wakes).map fun c => (s.setCondition c).setOwed (s.owed - 1) else none
  | .enqueueFrom i =>
    match s.worker i with
    | .running t => some (s.push.setWorker i (.notifying t))
    | _ => none
  | .notifyFrom i wakes =>
    match s.worker i with
    | .notifying t => (s.condition.notifyOne wakes).map fun c => (s.setCondition c).setWorker i (.running t)
    | _ => none
  | .look i => if s.canLook i then some (s.look i) else none
  | .start i =>
    match s.worker i with
    | .fetched t => some ((s.logStart t).setWorker i (.running t))
    | _ => none
  | .finish i =>
    match s.worker i with
    | .running t => some ((s.logFinish t).setWorker i .ready)
    | _ => none
  | .spurious i => if i ∈ s.condition.waiting then some (s.setCondition (s.condition.wake i)) else none
  | .setStop => if s.destructor = .notCalled then some (s.setStop.setDestructor .stopped) else none
  | .notifyAll =>
    if s.destructor = .stopped then some ((s.setCondition s.condition.notifyAll).setDestructor .joining) else none
  | .join =>
    if s.destructor = .joining ∧ ∀ i, s.worker i = .returned then some (s.setDestructor .done) else none

/-! ## What the workers hold -/

section Among

variable {k : ℕ}

/-- a task taken and not started -/
def Worker.held? : Worker → Option ℕ
  | .fetched t => some t
  | _ => none

/-- a task started and not finished -/
def Worker.active? : Worker → Option ℕ
  | .running t => some t
  | .notifying t => some t
  | _ => none

/-- what `f` finds at the workers -/
def among (w : Fin k → Worker) (f : Worker → Option ℕ) : List ℕ := (List.finRange k).filterMap fun i => f (w i)

/-- one worker changes: what it had goes, what it has now comes -/
theorem among_update (w : Fin k → Worker) (f : Worker → Option ℕ) (i : Fin k) (x : Worker) :
    (among (Function.update w i x) f ++ (f (w i)).toList).Perm (among w f ++ (f x).toList) := by
  obtain ⟨l, r, hsplit⟩ := List.append_of_mem (List.mem_finRange i)
  have hnodup := List.nodup_finRange k
  rw [hsplit, List.nodup_middle, List.nodup_cons] at hnodup
  have hother : ∀ js : List (Fin k), (∀ j ∈ js, j ∈ l ++ r) →
      js.filterMap (fun j => f (Function.update w i x j)) = js.filterMap fun j => f (w j) := by
    intro js hjs
    apply List.filterMap_congr
    intro j hj
    rw [Function.update_of_ne (ne_of_mem_of_not_mem (hjs j hj) hnodup.1)]
  have hcons : ∀ (g : Fin k → Option ℕ), (l ++ i :: r).filterMap g = l.filterMap g ++ ((g i).toList ++ r.filterMap g) := by
    intro g
    rw [List.filterMap_append, List.filterMap_cons]
    cases g i <;> rfl
  unfold among
  rw [hsplit, hcons, hcons, hother l fun j hj => List.mem_append_left r hj,
    hother r fun j hj => List.mem_append_right l hj, Function.update_self]
  simp only [List.append_assoc]
  refine List.Perm.append_left _ (List.perm_append_comm.trans ?_)
  rw [List.append_assoc]
  exact List.perm_append_comm_assoc ..

variable {w : Fin k → Worker} {f : Worker → Option ℕ} {i : Fin k} {x : Worker} {t : ℕ}

theorem among_same (h : f x = f (w i)) : (among (Function.update w i x) f).Perm (among w f) := by
  have hperm := among_update w f i x
  rw [h] at hperm
  exact (List.perm_append_right_iff _).1 hperm

theorem among_gain (hold : f (w i) = none) (hnew : f x = some t) :
    (among (Function.update w i x) f).Perm (among w f ++ [t]) := by
  have hperm := among_update w f i x
  rwa [hold, hnew, Option.toList_none, List.append_nil] at hperm

theorem among_loss (hold : f (w i) = some t) (hnew : f x = none) :
    (among (Function.update w i x) f ++ [t]).Perm (among w f) := by
  have hperm := among_update w f i x
  rwa [hold, hnew, Option.toList_none, List.append_nil] at hperm

theorem among_none (h : ∀ i, f (w i) = none) : among w f = [] := by
  rw [among, List.filterMap_eq_nil_iff]
  exact fun i _ => h i

end Among

/-! ## Invariant -/

structure Inv {k : ℕ} (s : St k) : Prop where
  order : s.taken ++ s.tasks = List.range s.enqueued
  held : (among s.worker Worker.held? ++ s.started).Perm s.taken
  active : (among s.worker Worker.active? ++ s.finished).Perm s.started
  returned : ∀ i, s.worker i = .returned → s.stop = true
  lookout : s.tasks ≠ [] → ∃ i, s.worker i ≠ .returned

variable {k : ℕ} {s s' : St k} {i : Fin k}

theorem init_inv (k : ℕ) : Inv (St.init k) where
  order := rfl
  held := by rw [St.init, among_none fun _ => rfl]; exact List.Perm.refl _
  active := by rw [St.init, among_none fun _ => rfl]; exact List.Perm.refl _
  returned i hi := by cases hi
  lookout h := absurd rfl h

/-- a step that concerns neither tasks nor workers -/
theorem Inv.keep (h : Inv s) (htasks : s'.tasks = s.tasks) (hstop : s.stop = true → s'.stop = true)
    (hworker : s'.worker = s.worker) (henqueued : s'.enqueued = s.enqueued) (htaken : s'.taken = s.taken)
    (hstarted : s'.started = s.started) (hfinished : s'.finished = s.finished) : Inv s' := by
  refine ⟨?_, ?_, ?_, ?_, ?_⟩
  · rw [htaken, htasks, henqueued]
    exact h.order
  · rw [hworker, hstarted, htaken]
    exact h.held
  · rw [hworker, hfinished, hstarted]
    exact h.active
  · intro i hi
    rw [hworker] at hi
    exact hstop (h.returned i hi)
  · rw [htasks, hworker]
    exact h.lookout

theorem Inv.returned_update (h : Inv s) {x : Worker} (hx : x ≠ .returned) (j : Fin k)
    (hj : Function.update s.worker i x j = .returned) : s.stop = true := by
  rcases eq_or_ne j i with rfl | hne
  · rw [Function.update_self] at hj
    exact absurd hj hx
  · rw [Function.update_of_ne hne] at hj
    exact h.returned j hj

/-- a worker moves on without returning -/
theorem Inv.move (h : Inv s) {x : Worker} (hx : x ≠ .returned) (hheld : x.held? = (s.worker i).held?)
    (hactive : x.active? = (s.worker i).active?) : Inv (s.setWorker i x) where
  order := h.order
  held := ((among_same hheld).append_right _).trans h.held
  active := ((among_same hactive).append_right _).trans h.active
  returned := h.returned_update hx
  lookout _ := ⟨i, by simp [St.setWorker, hx]⟩

/-- a task more, as long as someone is there to look -/
theorem Inv.push (h : Inv s) (hsome : ∃ i, s.worker i ≠ .returned) : Inv s.push where
  order := by
    show s.taken ++ (s.tasks ++ [s.enqueued]) = List.range (s.enqueued + 1)
    rw [← List.append_assoc, h.order, List.range_succ]
  held := h.held
  active := h.active
  returned := h.returned
  lookout _ := hsome

/-- an element moves past the rest to the end -/
theorem perm_snoc {xs ys zs : List ℕ} {t : ℕ} (h : (xs ++ ys).Perm zs) : (xs ++ [t] ++ ys).Perm (zs ++ [t]) := by
  rw [List.append_assoc]
  refine (List.perm_append_comm.append_left _).trans ?_
  rw [← List.append_assoc]
  exact h.append_right _

/-- an element moves from the first list to the end of the last -/
theorem perm_pass {xs ys zs : List ℕ} {t : ℕ} (h : (xs ++ [t]).Perm ys) : (xs ++ (zs ++ [t])).Perm (ys ++ zs) := by
  refine (List.perm_append_comm.append_left _).trans ?_
  rw [← List.append_assoc]
  exact h.append_right _

theorem Inv.look (h : Inv s) (hlook : s.canLook i) : Inv (s.look i) := by
  have hidle : (s.worker i).held? = none ∧ (s.worker i).active? = none := by
    rcases hlook with hready | ⟨hasleep, -⟩
    · rw [hready]
      exact ⟨rfl, rfl⟩
    · rw [hasleep]
      exact ⟨rfl, rfl⟩
  unfold St.look
  dsimp only
  split_ifs with hwait
  · have hjoin : Inv (s.setCondition (s.condition.join i)) := h.keep rfl id rfl rfl rfl rfl rfl
    exact hjoin.move (by simp) hidle.1.symm hidle.2.symm
  · split
    · -- nothing to do and `stop`: the worker returns
      rename_i htasks
      have hnil : s.tasks = [] := htasks
      have hstop : s.stop = true := by simpa [hnil] using hwait
      refine ⟨h.order, ?_, ?_, fun _ _ => hstop, fun hne => absurd hnil hne⟩
      · exact ((among_same hidle.1.symm).append_right _).trans h.held
      · exact ((among_same hidle.2.symm).append_right _).trans h.active
    · rename_i t rest htasks
      have hcons : s.tasks = t :: rest := htasks
      refine ⟨?_, ?_, ?_, h.returned_update (by simp), fun _ => ⟨i, by simp [St.setWorker]⟩⟩
      · show s.taken ++ [t] ++ rest = List.range s.enqueued
        rw [List.append_assoc, List.singleton_append, ← hcons, h.order]
      · show (among (Function.update s.worker i (.fetched t)) Worker.held? ++ s.started).Perm (s.taken ++ [t])
        have hgain : (among (Function.update s.worker i (.fetched t)) Worker.held?).Perm
            (among s.worker Worker.held? ++ [t]) := among_gain hidle.1 rfl
        exact (hgain.append_right _).trans (perm_snoc h.held)
      · exact ((among_same hidle.2.symm).append_right _).trans h.active

theorem Inv.start (h : Inv s) {t : ℕ} (hworker : s.worker i = .fetched t) :
    Inv ((s.logStart t).setWorker i (.running t)) := by
  refine ⟨h.order, ?_, ?_, h.returned_update (by simp), fun _ => ⟨i, by simp [St.setWorker]⟩⟩
  · show (among (Function.update s.worker i (.running t)) Worker.held? ++ (s.started ++ [t])).Perm s.taken
    have hloss : (among (Function.update s.worker i (.running t)) Worker.held? ++ [t]).Perm
        (among s.worker Worker.held?) := among_loss (by rw [hworker]; rfl) rfl
    exact (perm_pass hloss).trans h.held
  · show (among (Function.update s.worker i (.running t)) Worker.active? ++ s.finished).Perm (s.started ++ [t])
    have hgain : (among (Function.update s.worker i (.running t)) Worker.active?).Perm
        (among s.worker Worker.active? ++ [t]) := among_gain (by rw [hworker]; rfl) rfl
    exact (hgain.append_right _).trans (perm_snoc h.active)

theorem Inv.finish (h : Inv s) {t : ℕ} (hworker : s.worker i = .running t) :
    Inv ((s.logFinish t).setWorker i .ready) := by
  refine ⟨h.order, ?_, ?_, h.returned_update (by simp), fun _ => ⟨i, by simp [St.setWorker]⟩⟩
  · have hsame : Worker.ready.held? = (s.worker i).held? := by rw [hworker]; rfl
    exact ((among_same hsame).append_right _).trans h.held
  · show (among (Function.update s.worker i .ready) Worker.active? ++ (s.finished ++ [t])).Perm s.started
    have hloss : (among (Function.update s.worker i .ready) Worker.active? ++ [t]).Perm
        (among s.worker Worker.active?) := among_loss (by rw [hworker]; rfl) rfl
    exact (perm_pass hloss).trans h.active

theorem step_inv (hk : 0 < k) (s : St k) (a : Act k) (s' : St k) (hstep : step s a = some s') (h : Inv s) : Inv s' := by
  cases a with
  | enqueue =>
    rw [step] at hstep
    split_ifs at hstep with hstop
    obtain rfl := Option.some.inj hstep
    -- before `stop` nobody has returned
    have hsome : ∃ i, s.worker i ≠ .returned := by
      refine ⟨⟨0, hk⟩, fun hreturned => ?_⟩
      exact absurd (hstop.symm.trans (h.returned _ hreturned)) (by decide)
    exact (h.push hsome).keep rfl id rfl rfl rfl rfl rfl
  | notify wakes =>
    rw [step] at hstep
    split_ifs at hstep
    obtain ⟨c, -, rfl⟩ := Option.map_eq_some_iff.1 hstep
    exact h.keep rfl id rfl rfl rfl rfl rfl
  | enqueueFrom i =>
    rw [step] at hstep
    split at hstep
    · rename_i t hworker
      obtain rfl := Option.some.inj hstep
      have hpush : Inv s.push := h.push ⟨i, by rw [hworker]; simp⟩
      have hrunning : s.push.worker i = .running t := hworker
      exact hpush.move (by simp) (by rw [hrunning]; rfl) (by rw [hrunning]; rfl)
    · cases hstep
  | notifyFrom i wakes =>
    rw [step] at hstep
    split at hstep
    · rename_i t hworker
      obtain ⟨c, -, rfl⟩ := Option.map_eq_some_iff.1 hstep
      have hnotified : Inv (s.setCondition c) := h.keep rfl id rfl rfl rfl rfl rfl
      have hnotifying : (s.setCondition c).worker i = .notifying t := hworker
      exact hnotified.move (by simp) (by rw [hnotifying]; rfl) (by rw [hnotifying]; rfl)
    · cases hstep
  | look i =>
    rw [step] at hstep
    split_ifs at hstep with hlook
    obtain rfl := Option.some.inj hstep
    exact h.look hlook
  | start i =>
    rw [step] at hstep
    split at hstep
    · rename_i t hworker
      obtain rfl := Option.some.inj hstep
      exact h.start hworker
    · cases hstep
  | finish i =>
    rw [step] at hstep
    split at hstep
    · rename_i t hworker
      obtain rfl := Option.some.inj hstep
      exact h.finish hworker
    · cases hstep
  | spurious i =>
    rw [step] at hstep
    split_ifs at hstep
    obtain rfl := Option.some.inj hstep
    exact h.keep rfl id rfl rfl rfl rfl rfl
  | setStop =>
    rw [step] at hstep
    split_ifs at hstep
    obtain rfl := Option.some.inj hstep
    exact h.keep rfl (fun _ => rfl) rfl rfl rfl rfl rfl
  | notifyAll =>
    rw [step] at hstep
    split_ifs at hstep
    obtain rfl := Option.some.inj hstep
    exact h.keep rfl id rfl rfl rfl rfl rfl
  | join =>
    rw [step] at hstep
    split_ifs at hstep
    obtain rfl := Option.some.inj hstep
    exact h.keep rfl id rfl rfl rfl rfl rfl

/-! ## Every interleaving -/

theorem poolSize_pos (numThreads : ℕ) : 0 < poolSize numThreads := by
  unfold poolSize
  split_ifs with hzero
  · exact Nat.one_pos
  · exact Nat.pos_of_ne_zero hzero

/-- **The pool.** For every number of threads and every interleaving: the tasks taken, followed by those in the queue, are
all tasks in the order they were enqueued; none is started twice; no worker has returned before `stop`; and if all workers
have returned, the queue is empty and every task enqueued has been started and finished exactly once. -/
theorem pool_correct (numThreads : ℕ) (acts : List (Act (poolSize numThreads))) (s : St (poolSize numThreads))
    (hrun : Machine.exec step (St.init _) acts = some s) :
    s.taken ++ s.tasks = List.range s.enqueued ∧ s.started.Nodup ∧ (∀ i, s.worker i = .returned → s.stop = true) ∧
      ((∀ i, s.worker i = .returned) → s.tasks = [] ∧ s.started.Perm (List.range s.enqueued) ∧
        s.finished.Perm (List.range s.enqueued)) := by
  have h : Inv s := Machine.exec_inv (step_inv (poolSize_pos numThreads)) hrun (init_inv _)
  have hnodup : s.taken.Nodup := by
    have hall : (s.taken ++ s.tasks).Nodup := h.order ▸ List.nodup_range
    exact (List.nodup_append.1 hall).1
  refine ⟨h.order, ?_, h.returned, ?_⟩
  · exact (List.nodup_append.1 (h.held.nodup_iff.2 hnodup)).2.1
  · intro hall
    have hempty : s.tasks = [] := by
      by_contra hne
      obtain ⟨i, hi⟩ := h.lookout hne
      exact hi (hall i)
    have hheld := h.held
    have hactive := h.active
    rw [among_none fun i => by rw [hall i]; rfl, List.nil_append] at hheld hactive
    have htaken : s.taken = List.range s.enqueued := by rw [← h.order, hempty, List.append_nil]
    rw [htaken] at hheld
    exact ⟨hempty, hheld, hactive.trans hheld⟩

/-- a pool asked for 0 threads: a task enqueues another, `stop` comes in between, both are executed -/
def lifetime : List (Act (poolSize 0)) :=
  let i : Fin (poolSize 0) := ⟨0, by decide⟩
  [.enqueue, .notify none, .look i, .start i, .setStop, .enqueueFrom i, .notifyFrom i none, .notifyAll, .finish i, .look i,
    .start i, .finish i, .look i, .join]

theorem pool_correct_lifetime :
    ∃ s, Machine.exec step (St.init (poolSize 0)) lifetime = some s ∧ (∀ i, s.worker i = .returned) ∧
      s.finished.Perm (List.range 2) := by
  have hend : (Machine.exec step (St.init (poolSize 0)) lifetime).map
      (fun s => (decide (∀ i, s.worker i = .returned), s.enqueued)) = some (true, 2) := by decide
  obtain ⟨s, hrun, heq⟩ := Option.map_eq_some_iff.1 hend
  rw [Prod.mk.injEq, decide_eq_true_eq] at heq
  obtain ⟨hall, henqueued⟩ := heq
  exact ⟨s, hrun, hall, henqueued ▸ ((pool_correct 0 lifetime s hrun).2.2.2 hall).2.2⟩

end InterviewPrep.ThreadPool
