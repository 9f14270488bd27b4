/-
The event manager of pureStorage/interview.cpp (`EventManager`), used by any number of threads.

`registerCallback` stores its callback, or, if the event has been triggered, fires it after the lock is released;
`triggerEvent` sets the flag, copies the stored callbacks and fires the copies after the lock is released. A locked section
is one step, every firing is a step of its own. Nothing is ever removed from `callbacks_`.

The history is the list of locked sections in their order. A registration is named by its place in it.

- `fired_per_trigger`: when all calls have returned, a callback registered after the first trigger of its type has been
  fired once, and one registered before has been fired by every trigger of its type: never, if there was none;
- `fired_twice` is a run in which a callback is fired twice.
-/
import InterviewPrep.Core.Machine
import InterviewPrep.Core.Threads

namespace InterviewPrep.EventManager

/-! ## Model -/

inductive EventType where
  | dataReady
  | error
  deriving DecidableEq

/-- a locked section -/
inductive Locked (Callback : Type) where
  | register (type : EventType) (cb : Callback)
  | trigger (type : EventType)

/-- callbacks carry the place of their registration in the history -/
structure St (ι Callback : Type) where
  callbacks : EventType → List (ℕ × Callback)
  eventFired : EventType → Bool
  /-- what a call has still to fire -/
  pending : ι → List (ℕ × Callback)
  history : List (Locked Callback)
  fired : List (ℕ × Callback)

inductive Act (ι Callback : Type) where
  | registerCallback (i : ι) (type : EventType) (cb : Callback)
  | triggerEvent (i : ι) (type : EventType)
  | fire (i : ι)

variable {ι Callback : Type} [DecidableEq ι]

namespace St

def init : St ι Callback := ⟨fun _ => [], fun _ => false, fun _ => [], [], []⟩

/-- the locked section of `registerCallback` -/
def registerCallback (s : St ι Callback) (i : ι) (type : EventType) (cb : Callback) : St ι Callback :=
  if s.eventFired type = true then
    { s with
      pending := Function.update s.pending i [(s.history.length, cb)]
      history := s.history ++ [.register type cb] }
  else
    { s with
      callbacks := Function.update s.callbacks type (s.callbacks type ++ [(s.history.length, cb)])
      history := s.history ++ [.register type cb] }

/-- the locked section of `triggerEvent` -/
def triggerEvent (s : St ι Callback) (i : ι) (type : EventType) : St ι Callback :=
  { s with
    eventFired := Function.update s.eventFired type true
    pending := Function.update s.pending i (s.callbacks type)
    history := s.history ++ [.trigger type] }

/-- `std::thread(cb).detach()` -/
def fire (s : St ι Callback) (i : ι) (c : ℕ × Callback) (rest : List (ℕ × Callback)) : St ι Callback :=
  { s with pending := Function.update s.pending i rest, fired := s.fired ++ [c] }

end St

def step (s : St ι Callback) : Act ι Callback → Option (St ι Callback)
  | .registerCallback i type cb => if (s.pending i).isEmpty then some (s.registerCallback i type cb) else none
  | .triggerEvent i type => if (s.pending i).isEmpty then some (s.triggerEvent i type) else none
  | .fire i =>
    match s.pending i with
    | [] => none
    | c :: rest => some (s.fire i c rest)

/-! ## The history -/

def isTrigger (type : EventType) : Locked Callback → Bool
  | .register _ _ => false
  | .trigger t => t = type

def triggered (type : EventType) (history : List (Locked Callback)) : Bool := history.any (isTrigger type)

def triggers (type : EventType) (history : List (Locked Callback)) : ℕ := history.countP (isTrigger type)

/-- how often a registration occurs among callbacks -/
def times (n : ℕ) (cs : List (ℕ × Callback)) : ℕ := cs.countP fun c => c.1 = n

/-- place `n` is a registration for the type, before its first trigger -/
def stored (n : ℕ) (type : EventType) (history : List (Locked Callback)) : Bool :=
  match history[n]? with
  | some (.register t _) => t = type && !triggered type (history.take n)
  | _ => false

/-- how often the registration at place `n` is fired when all is done -/
def due (n : ℕ) (history : List (Locked Callback)) : ℕ :=
  match history[n]? with
  | some (.register t _) => if triggered t (history.take n) then 1 else triggers t history
  | _ => 0

variable {history : List (Locked Callback)} {n : ℕ} {type : EventType} {cb : Callback}

theorem triggers_eq_zero (h : triggered type history = false) : triggers type history = 0 := by
  rw [triggers, List.countP_eq_zero]
  intro l hl
  exact List.any_eq_false.1 h l hl

/-- the lookups before place `n`, and at it -/
theorem lookup_concat (l : Locked Callback) (hn : n ≠ history.length) :
    (history ++ [l])[n]? = history[n]? ∧ (∀ l', history[n]? = some l' → (history ++ [l]).take n = history.take n) := by
  rcases Nat.lt_or_ge n history.length with hlt | hge
  · exact ⟨List.getElem?_append_left hlt, fun _ _ => List.take_append_of_le_length hlt.le⟩
  · have hnone : history[n]? = none := List.getElem?_eq_none hge
    refine ⟨?_, fun l' hl' => ?_⟩
    · rw [hnone, List.getElem?_eq_none]
      rw [List.length_append, List.length_singleton]
      omega
    · cases hnone.symm.trans hl'

theorem stored_of_ne (l : Locked Callback) (hn : n ≠ history.length) :
    stored n type (history ++ [l]) = stored n type history := by
  obtain ⟨hat, hbefore⟩ := lookup_concat l hn
  rw [stored, stored, hat]
  cases hlookup : history[n]? with
  | none => rfl
  | some l' => rw [hbefore l' hlookup]

theorem stored_trigger (n : ℕ) (type t : EventType) (history : List (Locked Callback)) :
    stored n type (history ++ [.trigger t]) = stored n type history := by
  rcases eq_or_ne n history.length with rfl | hne
  · simp [stored]
  · exact stored_of_ne _ hne

theorem stored_register (type t : EventType) (cb : Callback) (history : List (Locked Callback)) :
    stored history.length type (history ++ [.register t cb]) = (t = type && !triggered type history) := by
  simp [stored]

theorem due_of_ne (t : EventType) (cb : Callback) (hn : n ≠ history.length) :
    due n (history ++ [.register t cb]) = due n history := by
  obtain ⟨hat, hbefore⟩ := lookup_concat (.register t cb) hn
  rw [due, due, hat]
  cases hlookup : history[n]? with
  | none => rfl
  | some l =>
    cases l with
    | trigger _ => rfl
    | register t' _ =>
      rw [hbefore _ hlookup]
      simp [triggers, isTrigger]

theorem due_register (t : EventType) (cb : Callback) (history : List (Locked Callback)) :
    due history.length (history ++ [.register t cb]) = (triggered t history).toNat := by
  cases htriggered : triggered t history with
  | true => simp [due, htriggered]
  | false =>
    have hnone := triggers_eq_zero htriggered
    rw [triggers] at hnone
    simp [due, htriggered, triggers, isTrigger, hnone]

/-- a trigger fires what is stored for its type, once more -/
theorem due_trigger (n : ℕ) (t : EventType) (history : List (Locked Callback)) :
    due n (history ++ [.trigger t]) = due n history + (stored n t history).toNat := by
  rcases eq_or_ne n history.length with rfl | hne
  · simp [due, stored]
  · obtain ⟨hat, hbefore⟩ := lookup_concat (.trigger t) hne
    rw [due, due, stored, hat]
    cases hlookup : history[n]? with
    | none => rfl
    | some l =>
      cases l with
      | trigger _ => rfl
      | register t' _ =>
        rw [hbefore _ hlookup]
        rcases eq_or_ne t' t with rfl | hne
        · cases htriggered : triggered t' (history.take n) <;> simp [htriggered, triggers, isTrigger]
        · simp [triggers, isTrigger, hne, hne.symm]

/-! ## Runs -/

theorem times_concat (n : ℕ) (cs : List (ℕ × Callback)) (c : ℕ × Callback) :
    times n (cs ++ [c]) = times n cs + times n [c] := List.countP_append

/-- the callback is the one of its registration -/
def Registered (history : List (Locked Callback)) (c : ℕ × Callback) : Prop :=
  ∃ t, history[c.1]? = some (.register t c.2)

theorem Registered.later {c : ℕ × Callback} (h : Registered history c) (l : Locked Callback) :
    Registered (history ++ [l]) c := by
  obtain ⟨t, ht⟩ := h
  exact ⟨t, by rw [List.getElem?_append_left (List.getElem?_eq_some_iff.1 ht).1, ht]⟩

variable [Fintype ι]

/-- what is stored, and what is fired or about to be, by the history -/
structure Inv (s : St ι Callback) : Prop where
  flag : ∀ t, s.eventFired t = triggered t s.history
  stored : ∀ n t, times n (s.callbacks t) = (stored n t s.history).toNat
  due : ∀ n, times n s.fired + ∑ i, times n (s.pending i) = due n s.history
  registered : (∀ t, ∀ c ∈ s.callbacks t, Registered s.history c) ∧ (∀ i, ∀ c ∈ s.pending i, Registered s.history c) ∧
    ∀ c ∈ s.fired, Registered s.history c

variable {s s' : St ι Callback} {i : ι}

omit [DecidableEq ι] [Fintype ι] in
theorem registered_new (history : List (Locked Callback)) (t : EventType) (cb : Callback) :
    Registered (history ++ [.register t cb]) (history.length, cb) := ⟨t, List.getElem?_concat_length⟩

theorem sum_pending (hi : s.pending i = []) (n : ℕ) (cs : List (ℕ × Callback)) :
    ∑ j, times n (Function.update s.pending i cs j) = ∑ j, times n (s.pending j) + times n cs := by
  have hsum := sum_update (times n) s.pending i cs
  rw [hi] at hsum
  exact hsum

theorem fireNow_inv (h : Inv s) (hi : s.pending i = []) (hfired : s.eventFired type = true) (cb : Callback) :
    Inv { s with
      pending := Function.update s.pending i [(s.history.length, cb)]
      history := s.history ++ [.register type cb] } := by
  have htriggered : triggered type s.history = true := (h.flag type).symm.trans hfired
  refine ⟨fun t => ?_, fun n t => ?_, fun n => ?_, fun t c hc => (h.registered.1 t c hc).later _, ?_,
    fun c hc => (h.registered.2.2 c hc).later _⟩
  · rw [h.flag t]
    simp [triggered, isTrigger]
  · rw [h.stored n t]
    rcases eq_or_ne n s.history.length with rfl | hne
    · rw [stored_register]
      rcases eq_or_ne type t with rfl | hne
      · simp [stored, htriggered]
      · simp [stored, hne]
    · rw [stored_of_ne _ hne]
  · rw [sum_pending hi, ← Nat.add_assoc, h.due n]
    rcases eq_or_ne n s.history.length with rfl | hne
    · rw [due_register, htriggered]
      simp [due, times]
    · rw [due_of_ne _ _ hne]
      simp [times, hne.symm]
  · apply (Function.forall_update_iff s.pending fun _ cs => ∀ c ∈ cs, Registered _ c).2
    refine ⟨fun c hc => ?_, fun j _ c hc => (h.registered.2.1 j c hc).later _⟩
    rw [List.mem_singleton.1 hc]
    exact registered_new s.history type cb

omit [DecidableEq ι] in
theorem store_inv (h : Inv s) (hfired : ¬s.eventFired type = true) (cb : Callback) :
    Inv { s with
      callbacks := Function.update s.callbacks type (s.callbacks type ++ [(s.history.length, cb)])
      history := s.history ++ [.register type cb] } := by
  have htriggered : triggered type s.history = false := by
    rw [← h.flag type]
    exact Bool.eq_false_of_not_eq_true hfired
  refine ⟨fun t => ?_, fun n t => ?_, fun n => ?_, ?_, fun j c hc => (h.registered.2.1 j c hc).later _,
    fun c hc => (h.registered.2.2 c hc).later _⟩
  · rw [h.flag t]
    simp [triggered, isTrigger]
  · rcases eq_or_ne t type with rfl | hother
    · simp only [Function.update_self]
      rw [times_concat, h.stored n t]
      rcases eq_or_ne n s.history.length with rfl | hne
      · rw [stored_register, htriggered]
        simp [stored, times]
      · rw [stored_of_ne _ hne]
        simp [times, hne.symm]
    · simp only [Function.update_of_ne hother]
      rw [h.stored n t]
      rcases eq_or_ne n s.history.length with rfl | hne
      · rw [stored_register]
        simp [stored, hother.symm]
      · rw [stored_of_ne _ hne]
  · rw [h.due n]
    rcases eq_or_ne n s.history.length with rfl | hne
    · rw [due_register, htriggered]
      simp [due]
    · rw [due_of_ne _ _ hne]
  · apply (Function.forall_update_iff s.callbacks fun _ cs => ∀ c ∈ cs, Registered _ c).2
    refine ⟨fun c hc => ?_, fun t _ c hc => (h.registered.1 t c hc).later _⟩
    rcases List.mem_append.1 hc with hold | hnew
    · exact (h.registered.1 type c hold).later _
    · rw [List.mem_singleton.1 hnew]
      exact registered_new s.history type cb

theorem triggerEvent_inv (h : Inv s) (hi : s.pending i = []) (type : EventType) : Inv (s.triggerEvent i type) := by
  refine ⟨fun t => ?_, fun n t => ?_, fun n => ?_, fun t c hc => (h.registered.1 t c hc).later _, ?_,
    fun c hc => (h.registered.2.2 c hc).later _⟩
  · rcases eq_or_ne t type with rfl | hne
    · simp [St.triggerEvent, triggered, isTrigger]
    · have hflag := h.flag t
      simpa [St.triggerEvent, triggered, isTrigger, hne, hne.symm] using hflag
  · show times n (s.callbacks t) = _
    rw [h.stored n t, St.triggerEvent, stored_trigger]
  · show times n s.fired + ∑ j, times n (Function.update s.pending i (s.callbacks type) j) = _
    rw [sum_pending hi, ← Nat.add_assoc, h.due n, h.stored n type, St.triggerEvent, due_trigger]
  · apply (Function.forall_update_iff s.pending fun _ cs => ∀ c ∈ cs, Registered _ c).2
    exact ⟨fun c hc => (h.registered.1 type c hc).later _, fun j _ c hc => (h.registered.2.1 j c hc).later _⟩

theorem fire_inv (h : Inv s) {c : ℕ × Callback} {rest : List (ℕ × Callback)} (hi : s.pending i = c :: rest) :
    Inv (s.fire i c rest) := by
  refine ⟨h.flag, h.stored, fun n => ?_, h.registered.1, ?_, ?_⟩
  · have hsum := sum_update (times n) s.pending i rest
    have hhead : times n (c :: rest) = times n [c] + times n rest := by
      rw [← List.singleton_append]
      exact List.countP_append
    rw [hi, hhead] at hsum
    have hdue := h.due n
    show times n (s.fired ++ [c]) + ∑ j, times n (Function.update s.pending i rest j) = _
    rw [times_concat]
    show _ = due n s.history
    omega
  · apply (Function.forall_update_iff s.pending fun _ cs => ∀ c ∈ cs, Registered _ c).2
    refine ⟨fun d hd => h.registered.2.1 i d ?_, fun j _ => h.registered.2.1 j⟩
    rw [hi]
    exact List.mem_cons_of_mem c hd
  · intro d hd
    rcases List.mem_append.1 hd with hold | hnew
    · exact h.registered.2.2 d hold
    · apply h.registered.2.1 i d
      rw [hi, List.mem_singleton.1 hnew]
      exact List.mem_cons_self

theorem step_inv (s : St ι Callback) (a : Act ι Callback) (s' : St ι Callback) (hstep : step s a = some s') (h : Inv s) :
    Inv s' := by
  cases a with
  | registerCallback i type cb =>
    rw [step] at hstep
    split_ifs at hstep with hidle
    obtain rfl := Option.some.inj hstep
    unfold St.registerCallback
    split_ifs with hfired
    · exact fireNow_inv h (List.isEmpty_iff.1 hidle) hfired cb
    · exact store_inv h hfired cb
  | triggerEvent i type =>
    rw [step] at hstep
    split_ifs at hstep with hidle
    obtain rfl := Option.some.inj hstep
    exact triggerEvent_inv h (List.isEmpty_iff.1 hidle) type
  | fire i =>
    rw [step] at hstep
    split at hstep
    · cases hstep
    · rename_i c rest hi
      obtain rfl := Option.some.inj hstep
      exact fire_inv h hi

omit [DecidableEq ι] in
theorem init_inv : Inv (St.init : St ι Callback) where
  flag _ := rfl
  stored n _ := by simp [St.init, times, stored]
  due n := by simp [St.init, times, due]
  registered := by simp [St.init]

/-- **Firings.** In every run after which all calls have returned, a callback registered for a type has been fired once if
the type had been triggered before, and else as often as the type has been triggered; none has been fired of a type that
has not been triggered. What is fired is the callback that was registered. -/
theorem fired_per_trigger (acts : List (Act ι Callback)) (s : St ι Callback)
    (hrun : Machine.exec step St.init acts = some s) (hdone : ∀ i, s.pending i = []) :
    (∀ n t cb, s.history[n]? = some (.register t cb) →
      (triggered t (s.history.take n) = true → times n s.fired = 1) ∧
      (triggered t (s.history.take n) = false → times n s.fired = triggers t s.history) ∧
      (triggered t s.history = false → times n s.fired = 0)) ∧
      ∀ c ∈ s.fired, ∃ t, s.history[c.1]? = some (.register t c.2) := by
  have h : Inv s := Machine.exec_inv step_inv hrun init_inv
  refine ⟨fun n t cb hn => ?_, h.registered.2.2⟩
  have hnone : ∑ i, times n (s.pending i) = 0 := by simp [hdone, times]
  have hdue : times n s.fired = if triggered t (s.history.take n) then 1 else triggers t s.history := by
    have hall := h.due n
    rwa [hnone, Nat.add_zero, due, hn] at hall
  refine ⟨fun hlate => ?_, fun hearly => ?_, fun hnever => ?_⟩
  · rw [hdue, hlate, if_pos rfl]
  · rw [hdue, hearly, if_neg Bool.false_ne_true]
  · have hbefore : triggered t (s.history.take n) = false := by
      rw [triggered, List.any_eq_false] at hnever ⊢
      exact fun l hl => hnever l (List.mem_of_mem_take hl)
    rw [hdue, hbefore, if_neg Bool.false_ne_true, triggers_eq_zero hnever]

/-- a registration before and one after a trigger, fired in the other order -/
def oneTrigger : List (Act (Fin 2) Char) :=
  [.registerCallback 0 .error 'a', .triggerEvent 0 .error, .registerCallback 1 .error 'b', .fire 1, .fire 0,
    .registerCallback 1 .dataReady 'c']

theorem fired_per_trigger_oneTrigger : ∃ s, Machine.exec step St.init oneTrigger = some s ∧
    s.fired = [(2, 'b'), (0, 'a')] ∧ times 0 s.fired = 1 ∧ times 3 s.fired = 0 :=
  ⟨_, rfl, rfl, ((fired_per_trigger oneTrigger _ rfl (by decide)).1 0 .error 'a' rfl).2.1 rfl,
    ((fired_per_trigger oneTrigger _ rfl (by decide)).1 3 .dataReady 'c' rfl).2.2 rfl⟩

/-- **Fired twice.** A callback is registered, and the event is triggered twice: when all calls have returned, it has been
fired twice. -/
theorem fired_twice : ∃ s, Machine.exec step St.init [.registerCallback (0 : Fin 1) .error 'a', .triggerEvent 0 .error,
      .fire 0, .triggerEvent 0 .error, .fire 0] = some s ∧ (∀ i, s.pending i = []) ∧
    s.history[0]? = some (.register .error 'a') ∧ triggered .error s.history = true ∧ times 0 s.fired ≠ 1 :=
  ⟨_, rfl, by decide, rfl, rfl, by decide⟩

end InterviewPrep.EventManager
