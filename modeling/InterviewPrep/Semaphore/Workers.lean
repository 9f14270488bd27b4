/-
The program of semaphore/countingSemaphore.c, over the semaphore of `Semaphore`.

Main initialises the semaphore, creates `n` workers one after the other, joins them in the same order and destroys the
semaphore. A worker waits, is in the critical section, posts and returns. A worker may run as soon as it is created, and any
schedule of the workers and main is a run.

- `semaphore_main`: there are never more workers inside than the initial value, and the steps of a run are bounded, but for two
  more with each spurious wake-up. When main destroys the semaphore every worker has returned, nobody is inside or asleep, and
  `count` is the initial value again. Where no thread can go on, main has come to its end exactly if the initial value is
  positive or there are no workers.
-/
import InterviewPrep.Semaphore

namespace InterviewPrep.Semaphore.Workers

/-! ## Model -/

structure St (n : ℕ) where
  sem : Semaphore.St (Fin n)
  /-- workers created so far -/
  created : ℕ
  /-- workers joined so far -/
  joined : ℕ
  returned : Finset (Fin n)
  /-- main has called `sem_destroy_custom` -/
  destroyed : Bool

/-- `wakes` is the thread that `pthread_cond_signal` picks -/
inductive Act (n : ℕ) where
  | create
  | wait (i : Fin n)
  | resume (i : Fin n)
  | post (i : Fin n) (wakes : Option (Fin n))
  | spurious (i : Fin n)
  | join
  | destroy
  deriving DecidableEq

variable {n : ℕ}

namespace St

def init (value : ℤ) : St n := ⟨.init value, 0, 0, ∅, false⟩

def setSem (s : St n) (sem : Semaphore.St (Fin n)) : St n := { s with sem := sem }

def call (s : St n) (a : Semaphore.Act (Fin n)) : Option (St n) := (Semaphore.step s.sem a).map s.setSem

def create (s : St n) : St n := { s with created := s.created + 1 }

/-- the worker is back from `sem_post_custom` -/
def finish (s : St n) (i : Fin n) : St n := { s with returned := insert i s.returned }

def join (s : St n) : St n := { s with joined := s.joined + 1 }

def destroy (s : St n) : St n := { s with destroyed := true }

end St

def step (s : St n) : Act n → Option (St n)
  | .create => if s.created < n then some s.create else none
  | .wait i => if i.val < s.created ∧ i ∉ s.returned then s.call (.wait i) else none
  | .resume i => s.call (.resume i)
  | .post i wakes => (s.call (.post i wakes)).map fun s => s.finish i
  | .spurious i => s.call (.spurious i)
  | .join => if s.created = n ∧ ∃ i ∈ s.returned, i.val = s.joined then some s.join else none
  | .destroy => if s.created = n ∧ s.joined = n ∧ s.destroyed = false then some s.destroy else none

def run (value : ℤ) (acts : List (Act n)) : Option (St n) := Machine.exec step (.init value) acts

/-! ## What a step can do -/

/-- a worker calls `sem_wait_custom`, or goes on with it -/
def Calls (s : St n) (a : Act n) (i : Fin n) : Prop :=
  a = .wait i ∧ i.val < s.created ∧ i ∉ s.returned ∧ i ∉ s.sem.inside ∧ i ∉ s.sem.cond.busy ∨
    a = .resume i ∧ i ∈ s.sem.cond.woken

inductive Effect (s : St n) : Act n → St n → Prop
  | created (hroom : s.created < n) : Effect s .create s.create
  | slept {a : Act n} {i : Fin n} (hcalls : Calls s a i) (hzero : s.sem.count = 0) : Effect s a (s.setSem (s.sem.sleep i))
  | entered {a : Act n} {i : Fin n} (hcalls : Calls s a i) (hsome : s.sem.count ≠ 0) :
      Effect s a (s.setSem (s.sem.enter i))
  | posted {i : Fin n} {wakes : Option (Fin n)} {c : Cond (Fin n)} (hi : i ∈ s.sem.inside)
      (hnotify : s.sem.cond.notifyOne wakes = some c) :
      Effect s (.post i wakes) ((s.setSem ⟨s.sem.count + 1, c, s.sem.inside.erase i⟩).finish i)
  | woke {i : Fin n} (hi : i ∈ s.sem.cond.waiting) : Effect s (.spurious i) (s.setSem (s.sem.spurious i))
  | joined {i : Fin n} (hall : s.created = n) (hi : i ∈ s.returned) (hnext : i.val = s.joined) : Effect s .join s.join
  | destroyed (hall : s.created = n) (hjoined : s.joined = n) (hfirst : s.destroyed = false) :
      Effect s .destroy s.destroy

variable {s s' : St n} {a : Act n} {i : Fin n} {k : ℕ}

theorem semWait_effect (hcalls : Calls s a i) : Effect s a (s.setSem (s.sem.semWait i)) := by
  unfold Semaphore.St.semWait
  split_ifs with hzero
  · exact .slept hcalls hzero
  · exact .entered hcalls hzero

theorem step_effect (h : step s a = some s') : Effect s a s' := by
  cases a with
  | create =>
    obtain ⟨hroom, heq⟩ := Option.ite_none_right_eq_some.1 h
    obtain rfl := Option.some.inj heq
    exact .created hroom
  | wait i =>
    obtain ⟨⟨hcreated, hback⟩, hcall⟩ := Option.ite_none_right_eq_some.1 h
    obtain ⟨sem, hstep, rfl⟩ := Option.map_eq_some_iff.1 hcall
    obtain ⟨hidle, heq⟩ := Option.ite_none_right_eq_some.1 hstep
    obtain rfl := Option.some.inj heq
    exact semWait_effect (Or.inl ⟨rfl, hcreated, hback, hidle⟩)
  | resume i =>
    obtain ⟨sem, hstep, rfl⟩ := Option.map_eq_some_iff.1 h
    obtain ⟨hwoken, heq⟩ := Option.ite_none_right_eq_some.1 hstep
    obtain rfl := Option.some.inj heq
    exact semWait_effect (Or.inr ⟨rfl, hwoken⟩)
  | post i wakes =>
    obtain ⟨t, hcall, rfl⟩ := Option.map_eq_some_iff.1 h
    obtain ⟨sem, hstep, rfl⟩ := Option.map_eq_some_iff.1 hcall
    obtain ⟨hi, hpost⟩ := Option.ite_none_right_eq_some.1 hstep
    obtain ⟨c, hnotify, rfl⟩ := Option.map_eq_some_iff.1 hpost
    exact .posted hi hnotify
  | spurious i =>
    obtain ⟨sem, hstep, rfl⟩ := Option.map_eq_some_iff.1 h
    obtain ⟨hi, heq⟩ := Option.ite_none_right_eq_some.1 hstep
    obtain rfl := Option.some.inj heq
    exact .woke hi
  | join =>
    obtain ⟨⟨hall, i, hi, hnext⟩, heq⟩ := Option.ite_none_right_eq_some.1 h
    obtain rfl := Option.some.inj heq
    exact .joined hall hi hnext
  | destroy =>
    obtain ⟨⟨hall, hjoined, hfirst⟩, heq⟩ := Option.ite_none_right_eq_some.1 h
    obtain rfl := Option.some.inj heq
    exact .destroyed hall hjoined hfirst

/-! ## Invariant -/

structure Inv (k : ℕ) (s : St n) : Prop where
  sem : Semaphore.Inv k s.sem
  /-- a worker that has returned is done with the semaphore -/
  apart : ∀ i ∈ s.returned, i ∉ s.sem.inside ∧ i ∉ s.sem.cond.busy
  /-- it has been inside -/
  entered : s.returned.Nonempty → 0 < k
  created : s.created ≤ n
  joined : ∀ i : Fin n, i.val < s.joined → i ∈ s.returned
  joined_le : s.joined ≤ n
  destroyed : s.destroyed = true → s.created = n ∧ s.joined = n

theorem init_inv : Inv k (St.init k : St n) where
  sem := Semaphore.init_inv k
  apart i hi := absurd hi (Finset.notMem_empty i)
  entered hne := absurd hne Finset.not_nonempty_empty
  created := Nat.zero_le n
  joined i hi := absurd hi (Nat.not_lt_zero _)
  joined_le := Nat.zero_le n
  destroyed h := by cases h

/-- a worker in a call has not returned, and is not inside or asleep -/
theorem Inv.calls (h : Inv k s) (hcalls : Calls s a i) :
    i ∉ s.returned ∧ i ∉ s.sem.inside ∧ i ∉ s.sem.cond.waiting := by
  rcases hcalls with ⟨-, -, hback, hout, hidle⟩ | ⟨-, hwoken⟩
  · exact ⟨hback, hout, fun hwaiting => hidle (Finset.mem_union_left _ hwaiting)⟩
  · have hbusy : i ∈ s.sem.cond.busy := Finset.mem_union_right _ hwoken
    exact ⟨fun hback => (h.apart i hback).2 hbusy, Finset.disjoint_right.1 h.sem.apart hbusy,
      Finset.disjoint_right.1 s.sem.cond.disjoint hwoken⟩

theorem step_inv (h : Inv k s) (hstep : step s a = some s') : Inv k s' := by
  cases step_effect hstep with
  | created hroom =>
    exact { h with created := hroom, destroyed := fun hd => absurd (h.destroyed hd).1 (Nat.ne_of_lt hroom) }
  | @slept _ i hcalls hzero =>
    obtain ⟨hback, hout, -⟩ := h.calls hcalls
    refine { h with sem := sleep_inv h.sem hout hzero, apart := fun j hj => ⟨(h.apart j hj).1, ?_⟩ }
    change j ∉ (s.sem.cond.join i).busy
    rw [Cond.busy_join, Finset.mem_insert, not_or]
    exact ⟨fun heq => hback (heq ▸ hj), (h.apart j hj).2⟩
  | @entered _ i hcalls hsome =>
    obtain ⟨hback, hout, hawake⟩ := h.calls hcalls
    refine { h with sem := enter_inv h.sem hout hawake hsome, apart := fun j hj => ⟨?_, fun hbusy => ?_⟩ }
    · change j ∉ insert i s.sem.inside
      rw [Finset.mem_insert, not_or]
      exact ⟨fun heq => hback (heq ▸ hj), (h.apart j hj).1⟩
    · rcases Cond.mem_busy_leave.1 hbusy with hwaiting | ⟨-, hwoken⟩
      · exact (h.apart j hj).2 (Finset.mem_union_left _ hwaiting)
      · exact (h.apart j hj).2 (Finset.mem_union_right _ hwoken)
  | @posted i wakes c hi hnotify =>
    have hbusy : c.busy = s.sem.cond.busy := Cond.busy_notifyOne hnotify
    have hpost : s.sem.semPost i wakes = some ⟨s.sem.count + 1, c, s.sem.inside.erase i⟩ := by
      rw [Semaphore.St.semPost, hnotify, Option.map_some]
    have hmany : 0 < s.sem.inside.card := Finset.card_pos.2 ⟨i, hi⟩
    have hunits := h.sem.units
    have hnonneg := h.sem.nonneg
    refine { h with
      sem := semPost_inv h.sem hi hpost
      apart := fun j hj => ?_
      entered := fun _ => by omega
      joined := fun j hj => Finset.mem_insert_of_mem (h.joined j hj) }
    change j ∉ s.sem.inside.erase i ∧ j ∉ c.busy
    rw [hbusy]
    rcases Finset.mem_insert.1 hj with rfl | hback
    · exact ⟨Finset.notMem_erase j _, Finset.disjoint_left.1 h.sem.apart hi⟩
    · exact ⟨fun hinside => (h.apart j hback).1 (Finset.mem_of_mem_erase hinside), (h.apart j hback).2⟩
  | @woke i hi =>
    refine { h with sem := spurious_inv h.sem hi, apart := fun j hj => ⟨(h.apart j hj).1, ?_⟩ }
    change j ∉ (s.sem.cond.wake i).busy
    rw [Cond.busy_wake hi]
    exact (h.apart j hj).2
  | @joined i hall hi hnext =>
    have hlt : s.joined < n := hnext ▸ i.isLt
    refine { h with
      joined := fun j hj => ?_
      joined_le := hlt
      destroyed := fun hd => absurd (h.destroyed hd).2 (Nat.ne_of_lt hlt) }
    rcases Nat.lt_succ_iff_lt_or_eq.1 hj with hbefore | heq
    · exact h.joined j hbefore
    · rw [Fin.ext (heq.trans hnext.symm)]
      exact hi
  | destroyed hall hjoined hfirst => exact { h with destroyed := fun _ => ⟨hall, hjoined⟩ }

theorem run_inv {acts : List (Act n)} (hrun : run k acts = some s) : Inv k s :=
  Machine.exec_inv (P := Inv k) (fun _ _ _ hstep h => step_inv h hstep) hrun init_inv

/-- the semaphore is destroyed when nobody has anything to do with it -/
theorem Inv.deserted (h : Inv k s) (hd : s.destroyed = true) :
    (∀ i, i ∈ s.returned) ∧ s.sem.inside = ∅ ∧ s.sem.cond.busy = ∅ ∧ s.sem.count = k := by
  have hback : ∀ i, i ∈ s.returned := fun i => h.joined i (i.isLt.trans_eq (h.destroyed hd).2.symm)
  have hinside : s.sem.inside = ∅ := Finset.eq_empty_of_forall_notMem fun i => (h.apart i (hback i)).1
  have hunits := h.sem.units
  rw [hinside, Finset.card_empty, Nat.cast_zero, add_zero] at hunits
  exact ⟨hback, hinside, Finset.eq_empty_of_forall_notMem fun i => (h.apart i (hback i)).2, hunits⟩

/-! ## How long it takes -/

/-- a worker waits, perhaps sleeping, is inside, and posts, which wakes at most one other -/
def potential (s : St n) : ℕ :=
  3 * n - (s.sem.cond.waiting.card + s.sem.inside.card + 3 * s.returned.card) + (n - s.created) + (n - s.joined) +
    (bif s.destroyed then 0 else 1)

/-- a thread that wakes up by itself may have to look in vain -/
def Act.extra : Act n → ℕ
  | .spurious _ => 2
  | _ => 0

/-- asleep, inside and returned are different workers -/
theorem Inv.card_le (h : Inv k s) : s.sem.cond.waiting.card + s.sem.inside.card + s.returned.card ≤ n := by
  have hfirst : Disjoint s.sem.cond.waiting s.sem.inside := by
    refine (h.sem.apart.mono_right ?_).symm
    exact Finset.subset_union_left
  have hsecond : Disjoint (s.sem.cond.waiting ∪ s.sem.inside) s.returned := by
    rw [Finset.disjoint_right]
    intro i hi hmem
    rcases Finset.mem_union.1 hmem with hwaiting | hinside
    · exact (h.apart i hi).2 (Finset.mem_union_left _ hwaiting)
    · exact (h.apart i hi).1 hinside
  rw [← Finset.card_union_of_disjoint hfirst, ← Finset.card_union_of_disjoint hsecond]
  exact (Finset.card_le_univ _).trans_eq (Fintype.card_fin n)

theorem extra_calls (hcalls : Calls s a i) : a.extra = 0 := by
  rcases hcalls with ⟨rfl, -⟩ | ⟨rfl, -⟩ <;> rfl

theorem step_potential (h : Inv k s) (hstep : step s a = some s') : potential s' + 1 ≤ potential s + a.extra := by
  have hafter := (step_inv h hstep).card_le
  cases step_effect hstep with
  | created hroom =>
    simp only [potential, St.create, Act.extra]
    omega
  | @slept _ i hcalls hzero =>
    obtain ⟨-, -, hawake⟩ := h.calls hcalls
    have hcard : (insert i s.sem.cond.waiting).card = s.sem.cond.waiting.card + 1 := Finset.card_insert_of_notMem hawake
    simp only [potential, St.setSem, Semaphore.St.sleep, Cond.join, hcard, extra_calls hcalls] at hafter ⊢
    omega
  | @entered _ i hcalls hsome =>
    obtain ⟨-, hout, -⟩ := h.calls hcalls
    have hcard : (insert i s.sem.inside).card = s.sem.inside.card + 1 := Finset.card_insert_of_notMem hout
    simp only [potential, St.setSem, Semaphore.St.enter, Cond.leave, hcard, extra_calls hcalls] at hafter ⊢
    omega
  | @posted i wakes c hi hnotify =>
    have hback : i ∉ s.returned := fun hback => (h.apart i hback).1 hi
    have hreturned : (insert i s.returned).card = s.returned.card + 1 := Finset.card_insert_of_notMem hback
    have hinside : (s.sem.inside.erase i).card + 1 = s.sem.inside.card := Finset.card_erase_add_one hi
    have hwaiting : s.sem.cond.waiting.card ≤ c.waiting.card + 1 := by
      rcases Cond.notifyOne_cases hnotify with ⟨-, rfl⟩ | ⟨j, hj, rfl⟩
      · exact Nat.le_succ _
      · exact (Finset.card_erase_add_one hj).ge
    simp only [potential, St.setSem, St.finish, hreturned, Act.extra] at hafter ⊢
    omega
  | @woke i hi =>
    have hcard : (s.sem.cond.waiting.erase i).card + 1 = s.sem.cond.waiting.card := Finset.card_erase_add_one hi
    simp only [potential, St.setSem, Semaphore.St.spurious, Cond.wake, Act.extra] at hafter ⊢
    omega
  | @joined i hall hi hnext =>
    have hlt : s.joined < n := hnext ▸ i.isLt
    simp only [potential, St.join, Act.extra]
    omega
  | destroyed hall hjoined hfirst =>
    simp only [potential, St.destroy, Act.extra, hfirst, cond_true, cond_false]
    omega

/-- **How long a run is.** Five steps for each worker and one more, and two for each spurious wake-up. -/
theorem length_le {acts : List (Act n)} (hrun : run k acts = some s) :
    acts.length ≤ 5 * n + 1 + (acts.map Act.extra).sum := by
  have hle := Machine.exec_length_le (P := Inv k) (fun _ _ _ hstep h => ⟨step_inv h hstep, step_potential h hstep⟩) hrun
    init_inv
  have hstart : potential (St.init k : St n) = 5 * n + 1 := by
    simp only [potential, St.init, Semaphore.St.init, Cond.empty, Finset.card_empty, cond_false]
    omega
  omega

/-! ## Where runs stop -/

/-- no thread can go on, other than by waking up by itself -/
def Stuck (s : St n) : Prop := ∀ a, (∀ i, a ≠ .spurious i) → step s a = none

theorem Stuck.created (h : Stuck s) (hs : Inv k s) : s.created = n := by
  by_contra hne
  have hroom : s.created < n := Nat.lt_of_le_of_ne hs.created hne
  have hnone := h .create (by simp)
  rw [step, if_pos hroom] at hnone
  cases hnone

theorem Stuck.inside (h : Stuck s) : s.sem.inside = ∅ := by
  refine Finset.eq_empty_of_forall_notMem fun i hi => ?_
  obtain ⟨wakes, c, hnotify⟩ := Cond.exists_notifyOne s.sem.cond
  have hnone := h (.post i wakes) (by simp)
  simp [step, St.call, Semaphore.step, hi, Semaphore.St.semPost, hnotify] at hnone

theorem Stuck.woken (h : Stuck s) : s.sem.cond.woken = ∅ := by
  refine Finset.eq_empty_of_forall_notMem fun i hi => ?_
  have hnone := h (.resume i) (by simp)
  simp [step, St.call, Semaphore.step, hi] at hnone

/-- a worker that does not sleep has come to its end -/
theorem Stuck.returned (h : Stuck s) (hs : Inv k s) (hawake : i ∉ s.sem.cond.waiting) : i ∈ s.returned := by
  by_contra hback
  have hcreated : i.val < s.created := (h.created hs).symm ▸ i.isLt
  have hidle : i ∉ s.sem.cond.busy := by
    rw [Cond.mem_busy, h.woken]
    simpa using hawake
  have hnone := h (.wait i) (by simp)
  simp [step, hcreated, hback, St.call, Semaphore.step, h.inside, hidle] at hnone

/-- with a unit at hand nobody sleeps -/
theorem Stuck.all_returned (h : Stuck s) (hs : Inv k s) (hk : 0 < k) (i : Fin n) : i ∈ s.returned := by
  refine h.returned hs fun hwaiting => ?_
  have hunits := hs.sem.units
  have hcovered := hs.sem.covered ⟨i, hwaiting⟩
  rw [h.inside, Finset.card_empty, Nat.cast_zero, add_zero] at hunits
  rw [h.woken, Finset.card_empty, hunits, Int.toNat_natCast] at hcovered
  omega

theorem Stuck.destroyed (h : Stuck s) (hs : Inv k s) (hback : ∀ i, i ∈ s.returned) : s.destroyed = true := by
  have hcreated := h.created hs
  have hjoined : s.joined = n := by
    by_contra hne
    have hlt : s.joined < n := Nat.lt_of_le_of_ne hs.joined_le hne
    have hnone := h .join (by simp)
    rw [step, if_pos ⟨hcreated, ⟨s.joined, hlt⟩, hback _, rfl⟩] at hnone
    cases hnone
  by_contra hfirst
  have hnone := h .destroy (by simp)
  rw [step, if_pos ⟨hcreated, hjoined, Bool.eq_false_of_not_eq_true hfirst⟩] at hnone
  cases hnone

/-- **The program.** Whatever the schedule, from the initial value `k` with `n` workers: at most `k` workers are inside; the run
has a bounded number of steps, but for spurious wake-ups; when main has destroyed the semaphore, every worker has returned, none
is inside, asleep or woken, and `count` is `k`; and where no thread can go on, main has destroyed it exactly if `k` is positive or
there are no workers. -/
theorem semaphore_main (k n : ℕ) (acts : List (Act n)) (s : St n) (hrun : run k acts = some s) :
    s.sem.inside.card ≤ k ∧ acts.length ≤ 5 * n + 1 + (acts.map Act.extra).sum ∧
      (s.destroyed = true →
        (∀ i, i ∈ s.returned) ∧ s.sem.inside = ∅ ∧ s.sem.cond.busy = ∅ ∧ s.sem.count = k) ∧
      (Stuck s → (s.destroyed = true ↔ 0 < k ∨ n = 0)) := by
  have hs : Inv k s := run_inv hrun
  have hunits := hs.sem.units
  have hnonneg := hs.sem.nonneg
  refine ⟨by omega, length_le hrun, hs.deserted, fun hstuck => ⟨fun hd => ?_, fun hgo => ?_⟩⟩
  · rcases Nat.eq_zero_or_pos n with hnone | hsome
    · exact Or.inr hnone
    · exact Or.inl (hs.entered ⟨⟨0, hsome⟩, (hs.deserted hd).1 _⟩)
  · refine hstuck.destroyed hs fun i => ?_
    rcases hgo with hk | rfl
    · exact hstuck.all_returned hs hk i
    · exact i.elim0

/-- numerals of `Fin 2` -/
local instance neZeroTwo : NeZero 2 := ⟨two_ne_zero⟩

/-- one unit for two workers: the second sleeps, looks once in vain, and is woken by the first -/
def oneUnit : List (Act 2) :=
  [.create, .wait 0, .create, .wait 1, .spurious 1, .resume 1, .post 0 (some 1), .join, .resume 1, .post 1 none, .join,
    .destroy]

theorem oneUnit_destroyed : (run 1 oneUnit).map (fun s => (s.destroyed, s.sem.count)) = some (true, 1) := by
  decide +kernel

theorem semaphore_main_oneUnit : ∃ s, run 1 oneUnit = some s ∧ s.destroyed = true ∧
    (∀ i, i ∈ s.returned) ∧ s.sem.count = 1 := by
  obtain ⟨s, hrun, heq⟩ := Option.map_eq_some_iff.1 oneUnit_destroyed
  obtain ⟨hd, -⟩ := Prod.mk.inj heq
  obtain ⟨hback, -, -, hcount⟩ := (semaphore_main 1 2 _ s hrun).2.2.1 hd
  exact ⟨s, hrun, hd, hback, hcount⟩

end InterviewPrep.Semaphore.Workers
