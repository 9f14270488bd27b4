/-
The singletons of singleton/singleton_manual_thread_safe.cpp and singleton/singleton_no_thread_safe.cpp, used by any number of
threads.

Instances are numbered in the order in which they are made. In the first program `CreateInstance` looks, makes and stores under
the mutex, but reads the pointer that it returns after the unlock, when others may hold the mutex: so what is done under it is not
one step. Taking the mutex is one with the look that follows, and releasing it one with what is done last. In the second program
nothing is locked, and the look, the construction, the store and the read for the return are steps of their own; its threads do not
destroy.

- `Locked.one_instance`: in every state there is at most one instance, and no instance is deleted twice; the pointer names an
  instance that is not there only where `DestroyInstance` has deleted it and not cleared the pointer yet; when every thread that
  has created has destroyed since, there is none. `CreateInstance` returns a live instance as long as none is deleted between its
  unlock and its return;
- `Locked.one_instance_overtaken` is a run in which it returns a deleted instance, and then a null pointer;
- `Racy.instances_lost`: as many instances are made as threads have looked before the first store, at most one for each thread; no
  null pointer is returned; all instances but one stay and cannot be reached.
-/
import InterviewPrep.Core.Machine
import InterviewPrep.Core.Threads

namespace InterviewPrep.Singleton

variable {ι : Type} [DecidableEq ι]

namespace Locked

/-! ## With the mutex -/

/-- what the thread that holds the mutex does next -/
inductive Place where
  /-- the pointer was null -/
  | making
  | storing (a : ℕ)
  /-- the pointer was not null -/
  | deleting (a : ℕ)
  | clearing
  deriving DecidableEq

structure St (ι : Type) where
  ptr : Option ℕ
  /-- the thread that holds the mutex -/
  inside : Option (ι × Place)
  live : Finset ℕ
  created : ℕ
  destroyed : ℕ
  /-- an instance has been deleted that is not there -/
  fault : Bool
  /-- threads between the unlock and the `return` of `CreateInstance` -/
  returning : Finset ι
  /-- threads that have run the locked section of `CreateInstance`, and not `DestroyInstance` since -/
  users : Finset ι
  /-- what `CreateInstance` has returned, and whether it was the address of a live instance then -/
  returned : List (Option ℕ × Bool)

inductive Act (ι : Type) where
  | create (i : ι)
  | make (i : ι)
  | store (i : ι) (a : ℕ)
  | ret (i : ι)
  | destroy (i : ι)
  | delete (i : ι) (a : ℕ)
  | clear (i : ι)

namespace St

def init : St ι := ⟨none, none, ∅, 0, 0, false, ∅, ∅, []⟩

def enter (s : St ι) (i : ι) (place : Place) : St ι := { s with inside := some (i, place) }

/-- the unlock of `CreateInstance` -/
def leaveCreate (s : St ι) (i : ι) : St ι :=
  { s with inside := none, returning := insert i s.returning, users := insert i s.users }

/-- the unlock of `DestroyInstance` -/
def leaveDestroy (s : St ι) (i : ι) : St ι := { s with inside := none, users := s.users.erase i }

def make (s : St ι) : St ι := { s with live := insert s.created s.live, created := s.created + 1 }

def setPtr (s : St ι) (ptr : Option ℕ) : St ι := { s with ptr := ptr }

def delete (s : St ι) (a : ℕ) : St ι :=
  if a ∈ s.live then { s with live := s.live.erase a, destroyed := s.destroyed + 1 } else { s with fault := true }

def ret (s : St ι) (i : ι) : St ι :=
  { s with returning := s.returning.erase i, returned := s.returned ++ [(s.ptr, s.ptr.any (· ∈ s.live))] }

end St

def step (s : St ι) : Act ι → Option (St ι)
  | .create i =>
    if s.inside = none ∧ i ∉ s.returning then some (if s.ptr = none then s.enter i .making else s.leaveCreate i) else none
  | .make i => if s.inside = some (i, .making) then some (s.make.enter i (.storing s.created)) else none
  | .store i a => if s.inside = some (i, .storing a) then some ((s.setPtr (some a)).leaveCreate i) else none
  | .ret i => if i ∈ s.returning then some (s.ret i) else none
  | .destroy i =>
    if s.inside = none ∧ i ∉ s.returning then
      match s.ptr with
      | none => some (s.leaveDestroy i)
      | some a => some (s.enter i (.deleting a))
    else none
  | .delete i a => if s.inside = some (i, .deleting a) then some ((s.delete a).enter i .clearing) else none
  | .clear i => if s.inside = some (i, .clearing) then some ((s.setPtr none).leaveDestroy i) else none

inductive Effect (s : St ι) : Act ι → St ι → Prop
  | misses {i : ι} (hfree : s.inside = none) (hptr : s.ptr = none) : Effect s (.create i) (s.enter i .making)
  | finds {i : ι} (hfree : s.inside = none) (hptr : s.ptr ≠ none) : Effect s (.create i) (s.leaveCreate i)
  | makes {i : ι} (hi : s.inside = some (i, .making)) : Effect s (.make i) (s.make.enter i (.storing s.created))
  | stores {i : ι} {a : ℕ} (hi : s.inside = some (i, .storing a)) : Effect s (.store i a) ((s.setPtr (some a)).leaveCreate i)
  | returns {i : ι} (hi : i ∈ s.returning) : Effect s (.ret i) (s.ret i)
  | nothing {i : ι} (hfree : s.inside = none) (hptr : s.ptr = none) : Effect s (.destroy i) (s.leaveDestroy i)
  | names {i : ι} {a : ℕ} (hfree : s.inside = none) (hptr : s.ptr = some a) : Effect s (.destroy i) (s.enter i (.deleting a))
  | deletes {i : ι} {a : ℕ} (hi : s.inside = some (i, .deleting a)) : Effect s (.delete i a) ((s.delete a).enter i .clearing)
  | clears {i : ι} (hi : s.inside = some (i, .clearing)) : Effect s (.clear i) ((s.setPtr none).leaveDestroy i)

variable {s s' : St ι} {a : Act ι}

theorem step_effect (h : step s a = some s') : Effect s a s' := by
  cases a with
  | create i =>
    obtain ⟨⟨hfree, -⟩, heq⟩ := Option.ite_none_right_eq_some.1 h
    obtain rfl := Option.some.inj heq
    split_ifs with hptr
    · exact .misses hfree hptr
    · exact .finds hfree hptr
  | make i =>
    obtain ⟨hi, heq⟩ := Option.ite_none_right_eq_some.1 h
    obtain rfl := Option.some.inj heq
    exact .makes hi
  | store i a =>
    obtain ⟨hi, heq⟩ := Option.ite_none_right_eq_some.1 h
    obtain rfl := Option.some.inj heq
    exact .stores hi
  | ret i =>
    obtain ⟨hi, heq⟩ := Option.ite_none_right_eq_some.1 h
    obtain rfl := Option.some.inj heq
    exact .returns hi
  | destroy i =>
    obtain ⟨⟨hfree, -⟩, heq⟩ := Option.ite_none_right_eq_some.1 h
    split at heq
    · rename_i hptr
      obtain rfl := Option.some.inj heq
      exact .nothing hfree hptr
    · rename_i b hptr
      obtain rfl := Option.some.inj heq
      exact .names hfree hptr
  | delete i a =>
    obtain ⟨hi, heq⟩ := Option.ite_none_right_eq_some.1 h
    obtain rfl := Option.some.inj heq
    exact .deletes hi
  | clear i =>
    obtain ⟨hi, heq⟩ := Option.ite_none_right_eq_some.1 h
    obtain rfl := Option.some.inj heq
    exact .clears hi

/-- what there is while the mutex is free, or held -/
def Phase (ptr : Option ℕ) (live : Finset ℕ) : Option (ι × Place) → Prop
  | none => live = ptr.toFinset
  | some (_, .making) => ptr = none ∧ live = ∅
  | some (_, .storing a) => ptr = none ∧ live = {a}
  | some (_, .deleting a) => ptr = some a ∧ live = {a}
  | some (_, .clearing) => ptr ≠ none ∧ live = ∅

structure Inv (s : St ι) : Prop where
  phase : Phase s.ptr s.live s.inside
  count : s.destroyed + s.live.card = s.created
  sound : s.fault = false
  -- whoever has made the instance is still there
  users : s.users = ∅ → s.ptr = none

omit [DecidableEq ι] in
theorem init_inv : Inv (St.init : St ι) := ⟨rfl, rfl, rfl, fun _ => rfl⟩

omit [DecidableEq ι] in
theorem Inv.phase_of (hs : Inv s) {inside : Option (ι × Place)} (h : s.inside = inside) : Phase s.ptr s.live inside := h ▸ hs.phase

theorem step_inv (h : step s a = some s') (hs : Inv s) : Inv s' := by
  have hcount := hs.count
  cases step_effect h with
  | misses hfree hptr =>
    have hlive : s.live = s.ptr.toFinset := hs.phase_of hfree
    rw [hptr, Option.toFinset_none] at hlive
    exact { hs with phase := ⟨hptr, hlive⟩ }
  | @finds i hfree hptr =>
    have hlive : s.live = s.ptr.toFinset := hs.phase_of hfree
    exact ⟨hlive, hs.count, hs.sound, fun hnone => absurd hnone (Finset.insert_ne_empty i s.users)⟩
  | makes hi =>
    obtain ⟨hptr, hlive⟩ : s.ptr = none ∧ s.live = ∅ := hs.phase_of hi
    have hone : insert s.created s.live = {s.created} := by rw [hlive]; rfl
    refine ⟨⟨hptr, hone⟩, ?_, hs.sound, hs.users⟩
    change s.destroyed + (insert s.created s.live).card = s.created + 1
    rw [hlive, Finset.card_empty] at hcount
    rw [hone, Finset.card_singleton, ← hcount]
  | @stores i b hi =>
    obtain ⟨hptr, hlive⟩ : s.ptr = none ∧ s.live = {b} := hs.phase_of hi
    exact ⟨hlive, hs.count, hs.sound, fun hnone => absurd hnone (Finset.insert_ne_empty i s.users)⟩
  | returns => exact ⟨hs.phase, hs.count, hs.sound, hs.users⟩
  | nothing hfree hptr =>
    have hlive : s.live = s.ptr.toFinset := hs.phase_of hfree
    exact ⟨hlive, hs.count, hs.sound, fun _ => hptr⟩
  | @names i b hfree hptr =>
    have hlive : s.live = s.ptr.toFinset := hs.phase_of hfree
    rw [hptr, Option.toFinset_some] at hlive
    exact { hs with phase := ⟨hptr, hlive⟩ }
  | @deletes i b hi =>
    obtain ⟨hptr, hlive⟩ : s.ptr = some b ∧ s.live = {b} := hs.phase_of hi
    have hnone : s.live.erase b = ∅ := by rw [hlive, Finset.erase_singleton]
    have hdelete : s.delete b = { s with live := s.live.erase b, destroyed := s.destroyed + 1 } :=
      if_pos (by rw [hlive]; exact Finset.mem_singleton_self b)
    rw [hdelete]
    refine ⟨⟨hptr.trans_ne (Option.some_ne_none b), hnone⟩, ?_, hs.sound, hs.users⟩
    change s.destroyed + 1 + (s.live.erase b).card = s.created
    rw [hlive, Finset.card_singleton] at hcount
    rw [hnone, Finset.card_empty, ← hcount]
  | clears hi =>
    obtain ⟨-, hlive⟩ : s.ptr ≠ none ∧ s.live = ∅ := hs.phase_of hi
    exact ⟨hlive, hs.count, hs.sound, fun _ => rfl⟩

/-- no instance is deleted while a thread is about to return -/
def Quiet (s : St ι) : Act ι → Prop
  | .delete _ _ => s.returning = ∅
  | _ => True

instance decidableQuiet (s : St ι) : ∀ act, Decidable (Quiet s act)
  | .delete _ _ => inferInstanceAs (Decidable (_ = _))
  | .create _ | .make _ | .store _ _ | .ret _ | .destroy _ | .clear _ => isTrue trivial

/-- the pointer names a live instance -/
def Named (s : St ι) : Prop := ∃ b, s.ptr = some b ∧ b ∈ s.live

structure Returns (s : St ι) : Prop where
  named : s.returning ≠ ∅ → Named s
  returned : ∀ r ∈ s.returned, ∃ b, r = (some b, true)

theorem step_returns (h : step s a = some s') (hinv : Inv s) (ha : Quiet s a) (hs : Returns s) : Returns s' := by
  cases step_effect h with
  | misses | nothing | names => exact ⟨hs.named, hs.returned⟩
  | @finds i hfree hptr =>
    have hlive : s.live = s.ptr.toFinset := hinv.phase_of hfree
    obtain ⟨b, hb⟩ := Option.ne_none_iff_exists'.1 hptr
    refine ⟨fun _ => ⟨b, hb, ?_⟩, hs.returned⟩
    change b ∈ s.live
    rw [hlive, hb]
    exact Finset.mem_singleton_self b
  | makes hi =>
    refine ⟨fun hne => ?_, hs.returned⟩
    obtain ⟨b, hb, hmem⟩ := hs.named hne
    exact ⟨b, hb, Finset.mem_insert_of_mem hmem⟩
  | @stores i b hi =>
    obtain ⟨-, hlive⟩ : s.ptr = none ∧ s.live = {b} := hinv.phase_of hi
    refine ⟨fun _ => ⟨b, rfl, ?_⟩, hs.returned⟩
    change b ∈ s.live
    rw [hlive]
    exact Finset.mem_singleton_self b
  | @returns i hi =>
    obtain ⟨b, hb, hmem⟩ := hs.named (Finset.ne_empty_of_mem hi)
    refine ⟨fun _ => ⟨b, hb, hmem⟩, fun r hr => ?_⟩
    rcases List.mem_append.1 hr with hold | hnew
    · exact hs.returned r hold
    · refine ⟨b, (List.mem_singleton.1 hnew).trans ?_⟩
      rw [hb, Option.any_some, decide_eq_true hmem]
  | @deletes i b hi =>
    have hkeep : (s.delete b).returning = s.returning ∧ (s.delete b).returned = s.returned := by
      unfold St.delete
      split_ifs <;> exact ⟨rfl, rfl⟩
    refine ⟨fun hne => absurd (hkeep.1.trans ha) hne, fun r hr => hs.returned r ?_⟩
    exact hkeep.2 ▸ hr
  | clears hi =>
    -- nobody is about to return, since the instance is deleted
    obtain ⟨-, hlive⟩ : s.ptr ≠ none ∧ s.live = ∅ := hinv.phase_of hi
    refine ⟨fun hne => ?_, hs.returned⟩
    obtain ⟨b, -, hmem⟩ := hs.named hne
    rw [hlive] at hmem
    exact absurd hmem (Finset.notMem_empty b)

omit [DecidableEq ι] in
/-- at most one instance, whoever holds the mutex -/
theorem Inv.card_le_one (hs : Inv s) : s.live.card ≤ 1 := by
  have hphase := hs.phase
  rcases hinside : s.inside with _ | ⟨i, _ | b | b | _⟩ <;> rw [hinside] at hphase
  · rw [show s.live = s.ptr.toFinset from hphase]
    cases s.ptr <;> simp
  · rw [hphase.2, Finset.card_empty]
    exact Nat.zero_le 1
  · rw [hphase.2, Finset.card_singleton]
  · rw [hphase.2, Finset.card_singleton]
  · rw [hphase.2, Finset.card_empty]
    exact Nat.zero_le 1

omit [DecidableEq ι] in
/-- where the pointer dangles -/
theorem Inv.clearing (hs : Inv s) {b : ℕ} (hb : s.ptr = some b) (hdead : b ∉ s.live) : ∃ i, s.inside = some (i, .clearing) := by
  have hphase := hs.phase
  rcases hinside : s.inside with _ | ⟨i, _ | c | c | _⟩ <;> rw [hinside, hb] at hphase
  · rw [show s.live = (some b).toFinset from hphase] at hdead
    exact absurd (Finset.mem_singleton_self b) hdead
  · cases hphase.1
  · cases hphase.1
  · obtain rfl := Option.some.inj hphase.1
    rw [hphase.2] at hdead
    exact absurd (Finset.mem_singleton_self b) hdead
  · exact ⟨i, rfl⟩

/-- **One instance.** Any number of threads call `CreateInstance` and `DestroyInstance`, interleaved in any way. There is never
more than one instance, none is deleted twice, and each instance made is the live one or has been deleted. While no one holds the
mutex, the live instance is the one that the pointer names; the pointer names a deleted one only between the `delete` and the
store of `DestroyInstance`. When every thread that has called `CreateInstance` has called `DestroyInstance` since, there is none.
If no instance is deleted between the unlock and the return of a `CreateInstance`, every call has returned a live one. -/
theorem one_instance {acts : List (Act ι)} (hrun : Machine.exec step St.init acts = some s) :
    s.live.card ≤ 1 ∧ s.fault = false ∧ s.destroyed + s.live.card = s.created ∧ (s.inside = none → s.live = s.ptr.toFinset) ∧
      (∀ b, s.ptr = some b → b ∉ s.live → ∃ i, s.inside = some (i, .clearing)) ∧
      (s.inside = none → s.users = ∅ → s.ptr = none ∧ s.destroyed = s.created) ∧
      (Machine.Meets step Quiet St.init acts → ∀ r ∈ s.returned, ∃ b, r = (some b, true)) := by
  have hs : Inv s := Machine.exec_inv (P := Inv) (fun _ _ _ h => step_inv h) hrun init_inv
  refine ⟨hs.card_le_one, hs.sound, hs.count, hs.phase_of, fun b => hs.clearing, fun hfree hnone => ⟨hs.users hnone, ?_⟩,
    fun hquiet => ?_⟩
  · have hlive : s.live = s.ptr.toFinset := hs.phase_of hfree
    have hcount := hs.count
    rwa [hlive, hs.users hnone, Option.toFinset_none, Finset.card_empty, Nat.add_zero] at hcount
  · exact (Machine.exec_inv_of_meets (P := fun s : St ι => Inv s ∧ Returns s)
      (fun _ _ _ h ha hs => ⟨step_inv h hs.1, step_returns h hs.1 ha hs.2⟩) hrun hquiet
      ⟨init_inv, fun h => absurd rfl h, fun _ h => (by cases h)⟩).2.returned

/-- as in `work`, by two threads, one after the other -/
def inTurn : List (Act Bool) :=
  [.create true, .make true, .store true 0, .ret true, .create false, .ret false, .destroy true, .delete true 0, .clear true,
    .destroy false]

theorem inTurn_quiet : Machine.Meets step Quiet St.init inTurn := by decide

/-- the two threads that have created return after a third has deleted the instance: one before it clears the pointer -/
def overtaken : List (Act ℕ) :=
  [.create 0, .make 0, .store 0 0, .create 1, .create 2, .ret 2, .destroy 2, .delete 2 0, .ret 0, .clear 2, .ret 1, .destroy 0,
    .destroy 1]

theorem one_instance_overtaken :
    (∃ s, Machine.exec step St.init inTurn = some s ∧ s.returned ≠ [] ∧ (∀ r ∈ s.returned, ∃ b, r = (some b, true)) ∧
      s.ptr = none ∧ s.destroyed = s.created) ∧
    ∃ s, Machine.exec step St.init overtaken = some s ∧ s.returned = [(some 0, true), (some 0, false), (none, false)] ∧
      s.ptr = none ∧ s.destroyed = s.created := by
  have hturn := one_instance (show Machine.exec step St.init inTurn = some _ from rfl)
  have hover := one_instance (show Machine.exec step St.init overtaken = some _ from rfl)
  exact ⟨⟨_, rfl, List.cons_ne_nil _ _, hturn.2.2.2.2.2.2 inTurn_quiet, hturn.2.2.2.2.2.1 rfl rfl⟩, _, rfl, rfl,
    hover.2.2.2.2.2.1 rfl rfl⟩

end Locked

namespace Racy

/-! ## Without -/

/-- in `CreateInstance` -/
inductive Pc where
  | idle
  /-- the pointer was null -/
  | making
  | made (a : ℕ)
  /-- about to read the pointer again -/
  | returning
  deriving DecidableEq

structure St (ι : Type) where
  ptr : Option ℕ
  live : Finset ℕ
  created : ℕ
  pc : ι → Pc
  /-- threads that have found the pointer null -/
  looked : Finset ι
  returned : List (Option ℕ)

inductive Act (ι : Type) where
  | look (i : ι)
  | make (i : ι)
  | store (i : ι)
  | ret (i : ι)

namespace St

def init : St ι := ⟨none, ∅, 0, fun _ => .idle, ∅, []⟩

def setPc (s : St ι) (i : ι) (pc : Pc) : St ι := { s with pc := Function.update s.pc i pc }

end St

def step (s : St ι) : Act ι → Option (St ι)
  | .look i =>
    if s.pc i = .idle then
      some (if s.ptr = none then { s.setPc i .making with looked := insert i s.looked } else s.setPc i .returning)
    else none
  | .make i =>
    if s.pc i = .making then
      some { s.setPc i (.made s.created) with live := insert s.created s.live, created := s.created + 1 }
    else none
  | .store i =>
    match s.pc i with
    | .made a => some { s.setPc i .returning with ptr := some a }
    | _ => none
  | .ret i => if s.pc i = .returning then some { s.setPc i .idle with returned := s.returned ++ [s.ptr] } else none

inductive Effect (s : St ι) : Act ι → St ι → Prop
  | misses {i : ι} (hi : s.pc i = .idle) (hptr : s.ptr = none) :
      Effect s (.look i) { s.setPc i .making with looked := insert i s.looked }
  | finds {i : ι} (hi : s.pc i = .idle) (hptr : s.ptr ≠ none) : Effect s (.look i) (s.setPc i .returning)
  | makes {i : ι} (hi : s.pc i = .making) :
      Effect s (.make i) { s.setPc i (.made s.created) with live := insert s.created s.live, created := s.created + 1 }
  | stores {i : ι} {a : ℕ} (hi : s.pc i = .made a) : Effect s (.store i) { s.setPc i .returning with ptr := some a }
  | returns {i : ι} (hi : s.pc i = .returning) :
      Effect s (.ret i) { s.setPc i .idle with returned := s.returned ++ [s.ptr] }

variable {s s' : St ι} {a : Act ι}

theorem step_effect (h : step s a = some s') : Effect s a s' := by
  cases a with
  | look i =>
    obtain ⟨hi, heq⟩ := Option.ite_none_right_eq_some.1 h
    obtain rfl := Option.some.inj heq
    split_ifs with hptr
    · exact .misses hi hptr
    · exact .finds hi hptr
  | make i =>
    obtain ⟨hi, heq⟩ := Option.ite_none_right_eq_some.1 h
    obtain rfl := Option.some.inj heq
    exact .makes hi
  | store i =>
    rw [step] at h
    split at h
    · rename_i b hi
      obtain rfl := Option.some.inj h
      exact .stores hi
    · cases h
  | ret i =>
    obtain ⟨hi, heq⟩ := Option.ite_none_right_eq_some.1 h
    obtain rfl := Option.some.inj heq
    exact .returns hi

/-- an instance under way -/
def Pc.busy : Pc → Bool
  | .making | .made _ => true
  | _ => false

def Pc.toMake : Pc → ℕ
  | .making => 1
  | _ => 0

/-- the instance that a thread holds -/
def Pc.held? : Pc → Option ℕ
  | .made a => some a
  | _ => none

variable [Fintype ι]

structure Inv (s : St ι) : Prop where
  live : s.live = Finset.range s.created
  ptr : ∀ a, s.ptr = some a → a < s.created
  held : ∀ i a, (s.pc i).held? = some a → a < s.created
  returning : ∀ i, s.pc i = .returning → s.ptr ≠ none
  looked : ∀ i, (s.pc i).busy = true → i ∈ s.looked
  -- before the first store, who has looked has not come back yet
  early : s.ptr = none → ∀ i ∈ s.looked, (s.pc i).busy = true
  count : s.created + ∑ i, (s.pc i).toMake = s.looked.card
  returned : ∀ r ∈ s.returned, ∃ a, r = some a ∧ a < s.created

omit [DecidableEq ι] in
theorem init_inv : Inv (St.init : St ι) where
  live := rfl
  ptr _ h := by cases h
  held _ _ h := by cases h
  returning _ h := by cases h
  looked _ h := by cases h
  early _ _ h := absurd h (Finset.notMem_empty _)
  count := by simp [St.init, Pc.toMake]
  returned _ h := by cases h

omit [Fintype ι] in
/-- a thread moves: what holds of its new place and held of all old ones -/
theorem forall_update {P : ι → Pc → Prop} {i : ι} {pc : Pc} (hold : ∀ j, P j (s.pc j)) (hnew : P i pc) (j : ι) :
    P j (Function.update s.pc i pc j) := by
  rcases eq_or_ne j i with rfl | hne
  · rwa [Function.update_self]
  · rw [Function.update_of_ne hne]
    exact hold j

/-- a thread that has no instance to make moves to where it has none under way -/
theorem Inv.settle (hs : Inv s) {i : ι} {x : Pc} (hmade : (s.pc i).toMake = 0) (hpc : x.busy = false) :
    (∀ j b, (Function.update s.pc i x j).held? = some b → b < s.created) ∧
      (∀ j, (Function.update s.pc i x j).busy = true → j ∈ s.looked) ∧
      s.created + ∑ j, (Function.update s.pc i x j).toMake = s.looked.card := by
  have hsum := sum_update Pc.toMake s.pc i x
  have hnone : x.held? = none ∧ x.toMake = 0 := by cases x <;> simp_all [Pc.busy, Pc.held?, Pc.toMake]
  rw [hmade, hnone.2, Nat.add_zero, Nat.add_zero] at hsum
  refine ⟨?_, ?_, ?_⟩
  · refine forall_update (P := fun _ pc => ∀ b, pc.held? = some b → b < s.created) hs.held fun b hb => ?_
    rw [hnone.1] at hb
    cases hb
  · refine forall_update (P := fun j pc => pc.busy = true → j ∈ s.looked) hs.looked fun hbusy => ?_
    rw [hpc] at hbusy
    cases hbusy
  · rw [hsum, hs.count]

theorem step_inv (h : step s a = some s') (hs : Inv s) : Inv s' := by
  cases step_effect h with
  | @misses i hi hptr =>
    have hsum := sum_update Pc.toMake s.pc i .making
    rw [hi] at hsum
    have hone : Pc.making.toMake = 1 := rfl
    have hzero : Pc.idle.toMake = 0 := rfl
    have hnew : i ∉ s.looked := fun hmem => by
      have hbusy := hs.early hptr i hmem
      rw [hi] at hbusy
      cases hbusy
    have hcount := hs.count
    refine { hs with held := ?_, returning := ?_, looked := ?_, early := fun _ => ?_, count := ?_ }
    · exact forall_update (P := fun _ pc => ∀ b, pc.held? = some b → b < s.created) hs.held fun _ hb => (by cases hb)
    · exact forall_update (P := fun _ pc => pc = .returning → s.ptr ≠ none) hs.returning fun hb => (by cases hb)
    · refine forall_update (P := fun j pc => pc.busy = true → j ∈ insert i s.looked) (fun j hj => ?_) fun _ => ?_
      · exact Finset.mem_insert_of_mem (hs.looked j hj)
      · exact Finset.mem_insert_self i s.looked
    · intro j hj
      change (Function.update s.pc i .making j).busy = true
      rcases eq_or_ne j i with rfl | hne
      · rw [Function.update_self]
        rfl
      · rw [Function.update_of_ne hne]
        exact hs.early hptr j (Finset.mem_of_mem_insert_of_ne hj hne)
    · change s.created + ∑ j, (Function.update s.pc i .making j).toMake = (insert i s.looked).card
      rw [Finset.card_insert_of_notMem hnew]
      omega
  | @finds i hi hptr =>
    obtain ⟨hheld, hlooked, hcount⟩ := hs.settle (x := .returning) (by rw [hi]; rfl) rfl
    exact { hs with
      held := hheld, returning := fun _ _ => hptr, looked := hlooked, early := fun hnull => absurd hnull hptr, count := hcount }
  | @makes i hi =>
    have hsum := sum_update Pc.toMake s.pc i (.made s.created)
    rw [hi] at hsum
    have hone : Pc.making.toMake = 1 := rfl
    have hzero : (Pc.made s.created).toMake = 0 := rfl
    have hcount := hs.count
    have hmem : i ∈ s.looked := hs.looked i (by rw [hi]; rfl)
    refine {
      live := ?_, ptr := fun b hb => Nat.lt_succ_of_lt (hs.ptr b hb), held := ?_, returning := ?_, looked := ?_
      early := fun hnull j hj => ?_, count := ?_, returned := fun r hr => ?_ }
    · change insert s.created s.live = Finset.range (s.created + 1)
      rw [hs.live, Finset.range_add_one]
    · refine forall_update (P := fun _ pc => ∀ b, pc.held? = some b → b < s.created + 1) (fun j b hb => ?_) fun b hb => ?_
      · exact Nat.lt_succ_of_lt (hs.held j b hb)
      · obtain rfl := Option.some.inj hb
        exact Nat.lt_succ_self _
    · exact forall_update (P := fun _ pc => pc = .returning → s.ptr ≠ none) hs.returning fun hb => (by cases hb)
    · exact forall_update (P := fun j pc => pc.busy = true → j ∈ s.looked) hs.looked fun _ => hmem
    · change (Function.update s.pc i (.made s.created) j).busy = true
      rcases eq_or_ne j i with rfl | hne
      · rw [Function.update_self]
        rfl
      · rw [Function.update_of_ne hne]
        exact hs.early hnull j hj
    · change s.created + 1 + ∑ j, (Function.update s.pc i (.made s.created) j).toMake = s.looked.card
      omega
    · obtain ⟨b, hb, hlt⟩ := hs.returned r hr
      exact ⟨b, hb, Nat.lt_succ_of_lt hlt⟩
  | @stores i b hi =>
    obtain ⟨hheld, hlooked, hcount⟩ := hs.settle (x := .returning) (by rw [hi]; rfl) rfl
    have hlt : b < s.created := hs.held i b (by rw [hi]; rfl)
    refine { hs with
      ptr := fun c hc => ?_, held := hheld, returning := fun _ _ => Option.some_ne_none b, looked := hlooked
      early := fun hnull => absurd hnull (Option.some_ne_none b), count := hcount }
    obtain rfl := Option.some.inj hc
    exact hlt
  | @returns i hi =>
    obtain ⟨hheld, hlooked, hcount⟩ := hs.settle (x := .idle) (by rw [hi]; rfl) rfl
    have hptr : s.ptr ≠ none := hs.returning i hi
    refine { hs with
      held := hheld, returning := fun _ _ => hptr, looked := hlooked, early := fun hnull => absurd hnull hptr, count := hcount
      returned := fun r hr => ?_ }
    rcases List.mem_append.1 hr with hr | hr
    · exact hs.returned r hr
    · obtain ⟨b, hb⟩ := Option.ne_none_iff_exists'.1 hptr
      exact ⟨b, (List.mem_singleton.1 hr).trans hb, hs.ptr b hb⟩

/-- **Instances lost.** Any number of threads call `CreateInstance` without the mutex, interleaved in any way. No more instances
are made than there are threads, and every pointer returned is that of an instance. When no call is under way, the instances are
as many as the threads that have found the pointer null, and all but the one that it names cannot be reached any more. -/
theorem instances_lost {acts : List (Act ι)} (hrun : Machine.exec step St.init acts = some s) :
    s.live.card = s.created ∧ s.created ≤ Fintype.card ι ∧ (∀ r ∈ s.returned, ∃ a ∈ s.live, r = some a) ∧
      ((∀ i, s.pc i = .idle) → s.created = s.looked.card ∧ (s.looked.Nonempty → ∃ a ∈ s.live, s.ptr = some a ∧
        (s.live.erase a).card = s.looked.card - 1)) := by
  have hs : Inv s := Machine.exec_inv (P := Inv) (fun _ _ _ h => step_inv h) hrun init_inv
  have hcard : s.live.card = s.created := by rw [hs.live, Finset.card_range]
  have hle : s.looked.card ≤ Fintype.card ι := Finset.card_le_univ s.looked
  have hcount := hs.count
  have hmem : ∀ {a}, a < s.created → a ∈ s.live := fun ha => by rwa [hs.live, Finset.mem_range]
  refine ⟨hcard, by omega, fun r hr => ?_, fun hidle => ?_⟩
  · obtain ⟨b, hb, hlt⟩ := hs.returned r hr
    exact ⟨b, hmem hlt, hb⟩
  · have hall : s.created = s.looked.card := by
      have hzero : ∑ i, (s.pc i).toMake = 0 := Finset.sum_eq_zero fun i _ => by rw [hidle i]; rfl
      omega
    refine ⟨hall, fun hne => ?_⟩
    obtain ⟨j, hj⟩ := hne
    have hptr : s.ptr ≠ none := fun hnull => by
      have hbusy := hs.early hnull j hj
      rw [hidle j] at hbusy
      cases hbusy
    obtain ⟨b, hb⟩ := Option.ne_none_iff_exists'.1 hptr
    have hlive := hmem (hs.ptr b hb)
    exact ⟨b, hlive, hb, by rw [Finset.card_erase_of_mem hlive, hcard, hall]⟩

/-- both threads look first -/
def together : List (Act Bool) :=
  [.look true, .look false, .make true, .store true, .ret true, .make false, .store false, .ret false]

theorem instances_lost_together : ∃ s, Machine.exec step St.init together = some s ∧ s.returned = [some 0, some 1] ∧
    s.created = 2 ∧ s.live.card = s.created :=
  ⟨_, rfl, rfl, rfl, (instances_lost (show Machine.exec step St.init together = some _ from rfl)).1⟩

end Racy

end InterviewPrep.Singleton
