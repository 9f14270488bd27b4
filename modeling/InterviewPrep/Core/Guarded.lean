/-
A container of nodes behind one lock, used by any number of threads.

`push` makes its node before it takes the lock, and links it under the lock; `pop` runs under the lock as a whole. A `Container`
says what the two do while they hold the lock, and to which list of values that comes; it puts in at one end and takes out at the
front, so that it is first in, first out or last in, first out.

Steps of a thread: make a node (any address that is not in use), link it, pop. They are interleaved in any order.

- `agrees`: for every interleaving, no step goes wrong, every answer is that of the list, and the nodes allocated are those of the
  container and those that a thread has made and not linked yet.
-/
import InterviewPrep.Core.Machine
import InterviewPrep.Core.NodeHeap
import InterviewPrep.Core.Threads

namespace InterviewPrep.Guarded

/-- at the end or at the front -/
def put {α : Type} (fifo : Bool) (l : List α) (x : α) : List α := bif fifo then l ++ [x] else x :: l

theorem map_put {α β : Type} (f : α → β) (fifo : Bool) (l : List α) (x : α) :
    (put fifo l x).map f = put fifo (l.map f) (f x) := by
  cases fifo <;> simp [put]

theorem perm_put {α : Type} (fifo : Bool) (l : List α) (x : α) : (put fifo l x).Perm (x :: l) := by
  cases fifo with
  | false => rfl
  | true => exact List.perm_append_singleton x l

theorem mem_put {α : Type} {fifo : Bool} {l : List α} {x y : α} : y ∈ put fifo l x ↔ y = x ∨ y ∈ l := by
  rw [(perm_put fifo l x).mem_iff, List.mem_cons]

/-- what is done under the lock. `κ` is the state of the container, apart from its nodes -/
structure Container (V Addr κ : Type) where
  init : κ
  link : NodeHeap V Addr → κ → Addr → Option (NodeHeap V Addr × κ)
  pop : NodeHeap V Addr → κ → Option (NodeHeap V Addr × κ × V)
  /-- the answer of `pop` where there is no node -/
  nothing : V
  fifo : Bool
  /-- the nodes in order, with their values -/
  Rep : NodeHeap V Addr → κ → List (Addr × V) → Prop
  rep_init : ∀ h, Rep h init []
  rep_congr : ∀ {h h' k l}, Rep h k l → (∀ a ∈ l.map Prod.fst, h' a = h a) → Rep h' k l
  allocated : ∀ {h k l a}, Rep h k l → a ∈ l.map Prod.fst → (h a).isSome
  nodup : ∀ {h k l}, Rep h k l → (l.map Prod.fst).Nodup
  link_spec : ∀ {h k l a v}, Rep h k l → h a = some ⟨v, none⟩ → a ∉ l.map Prod.fst →
    ∃ h' k', link h k a = some (h', k') ∧ Rep h' k' (put fifo l (a, v)) ∧ ∀ c, c ≠ a → c ∉ l.map Prod.fst → h' c = h c
  pop_nil : ∀ {h k}, Rep h k [] → pop h k = some (h, k, nothing)
  pop_cons : ∀ {h k l a v}, Rep h k ((a, v) :: l) →
    ∃ h' k', pop h k = some (h', k', v) ∧ Rep h' k' l ∧ h' a = none ∧ ∀ c, c ≠ a → h' c = h c

variable {V Addr κ ι : Type} [DecidableEq ι] [DecidableEq Addr]

/-! ## Threads -/

structure St (V Addr κ ι : Type) where
  heap : NodeHeap V Addr
  cont : κ
  /-- the node that a thread has made and not linked yet -/
  made : ι → Option Addr

inductive Act (V Addr ι : Type) where
  | new (i : ι) (v : V) (a : Addr)
  | link (i : ι)
  | pop (i : ι)

inductive Answer (V : Type) where
  | done
  | value (v : V)
  deriving DecidableEq

namespace Container

variable (C : Container V Addr κ)

def start : St V Addr κ ι := ⟨fun _ => none, C.init, fun _ => none⟩

/-- a thread that has made a node links it next -/
def step (s : St V Addr κ ι) : Act V Addr ι → Option (St V Addr κ ι × Answer V)
  | .new i v a =>
    if s.made i = none ∧ s.heap a = none then
      some (⟨Function.update s.heap a (some ⟨v, none⟩), s.cont, Function.update s.made i (some a)⟩, .done)
    else none
  | .link i => (s.made i).bind fun a =>
      (C.link s.heap s.cont a).map fun r => (⟨r.1, r.2, Function.update s.made i none⟩, .done)
  | .pop i =>
    if s.made i = none then (C.pop s.heap s.cont).map fun r => (⟨r.1, r.2.1, s.made⟩, .value r.2.2) else none

end Container

/-- what the calls may rely on, and what the threads do -/
def Possible (s : St V Addr κ ι) : Act V Addr ι → Prop
  | .new i _ a => s.made i = none ∧ s.heap a = none
  | .link i => (s.made i).isSome
  | .pop i => s.made i = none

instance [DecidableEq V] (s : St V Addr κ ι) : ∀ act, Decidable (Possible s act)
  | .new i _ a => inferInstanceAs (Decidable (s.made i = none ∧ s.heap a = none))
  | .link i => inferInstanceAs (Decidable ((s.made i).isSome = true))
  | .pop i => inferInstanceAs (Decidable (s.made i = none))

/-! ## The list behind the lock -/

/-- the values in the container, and those that the threads are about to put in -/
structure Values (V ι : Type) where
  contents : List V
  pending : ι → Option V

namespace Values

def start : Values V ι := ⟨[], fun _ => none⟩

def step (fifo : Bool) (nothing : V) (t : Values V ι) : Act V Addr ι → Values V ι × Answer V
  | .new i v _ => ({ t with pending := Function.update t.pending i (some v) }, .done)
  | .link i =>
    match t.pending i with
    | none => (t, .done)
    | some v => (⟨put fifo t.contents v, Function.update t.pending i none⟩, .done)
  | .pop _ => ({ t with contents := t.contents.tail }, .value (t.contents.headD nothing))

end Values

/-- `l` are the nodes of the container -/
structure Holding (C : Container V Addr κ) (s : St V Addr κ ι) (t : Values V ι) (l : List (Addr × V)) : Prop where
  rep : C.Rep s.heap s.cont l
  contents : l.map Prod.snd = t.contents
  pending : ∀ i a, s.made i = some a → ∃ v, t.pending i = some v ∧ s.heap a = some ⟨v, none⟩
  idle : ∀ i, s.made i = none → t.pending i = none
  apart : ∀ i a, s.made i = some a → a ∉ l.map Prod.fst
  own : ∀ i j a, s.made i = some a → s.made j = some a → i = j
  live : ∀ a, (s.heap a).isSome ↔ a ∈ l.map Prod.fst ∨ ∃ i, s.made i = some a

/-- the values are those of the list, and no node is lost -/
def Holds (C : Container V Addr κ) (s : St V Addr κ ι) (t : Values V ι) : Prop := ∃ l, Holding C s t l

variable {C : Container V Addr κ} {s : St V Addr κ ι} {t : Values V ι} {l : List (Addr × V)}

omit [DecidableEq ι] [DecidableEq Addr] in
theorem holds_start (C : Container V Addr κ) : Holds C (C.start : St V Addr κ ι) Values.start := by
  refine ⟨[], C.rep_init _, rfl, fun _ _ h => (by cases h), fun _ _ => rfl, fun _ _ h => (by cases h),
    fun _ _ _ h => (by cases h), fun a => iff_of_false Bool.false_ne_true ?_⟩
  rintro (ha | ⟨i, hi⟩)
  · cases ha
  · cases hi

omit [DecidableEq ι] [DecidableEq Addr] in
/-- a node that is not in use is no one's -/
theorem Holding.fresh {a : Addr} (hs : Holding C s t l) (ha : s.heap a = none) :
    a ∉ l.map Prod.fst ∧ ∀ i, s.made i ≠ some a := by
  have hnot : ¬(s.heap a).isSome := by
    rw [ha]
    exact Bool.false_ne_true
  rw [hs.live a, not_or, not_exists] at hnot
  exact hnot

theorem new_holds (hs : Holds C s t) {i : ι} {a : Addr} (v : V) (hi : s.made i = none) (ha : s.heap a = none) :
    ∃ s', C.step s (.new i v a) = some (s', .done) ∧
      Holds C s' (Values.step C.fifo C.nothing t (.new i v a : Act V Addr ι)).1 := by
  obtain ⟨l, hs⟩ := hs
  obtain ⟨hal, hmade⟩ := hs.fresh ha
  have hother : ∀ {c}, c ≠ a → Function.update s.heap a (some ⟨v, none⟩) c = s.heap c := fun hc => Function.update_of_ne hc ..
  refine ⟨_, by rw [Container.step, if_pos ⟨hi, ha⟩], l, ?_, hs.contents, fun j c hj => ?_, fun j hj => ?_, fun j c hj => ?_,
    fun j k c hj hk => ?_, fun c => ?_⟩
  · exact C.rep_congr hs.rep fun c hc => hother fun heq => hal (by rwa [heq] at hc)
  · change ∃ w, Function.update t.pending i (some v) j = some w ∧ Function.update s.heap a (some ⟨v, none⟩) c = some ⟨w, none⟩
    rcases update_some_eq_some.1 hj with ⟨rfl, rfl⟩ | ⟨hji, hj⟩
    · exact ⟨v, Function.update_self .., Function.update_self ..⟩
    · rw [Function.update_of_ne hji, hother fun heq => hmade j (by rw [hj, heq])]
      exact hs.pending j c hj
  · change Function.update s.made i (some a) j = none at hj
    change Function.update t.pending i (some v) j = none
    rcases eq_or_ne j i with rfl | hji
    · rw [Function.update_self] at hj
      cases hj
    · rw [Function.update_of_ne hji] at hj ⊢
      exact hs.idle j hj
  · rcases update_some_eq_some.1 hj with ⟨rfl, rfl⟩ | ⟨-, hj⟩
    · exact hal
    · exact hs.apart j c hj
  · rcases update_some_eq_some.1 hj with ⟨rfl, rfl⟩ | ⟨-, holdj⟩ <;>
      rcases update_some_eq_some.1 hk with ⟨rfl, heq⟩ | ⟨-, holdk⟩
    · rfl
    · exact absurd holdk (hmade k)
    · rw [← heq] at holdj
      exact absurd holdj (hmade j)
    · exact hs.own j k c holdj holdk
  · change (Function.update s.heap a (some ⟨v, none⟩) c).isSome ↔ c ∈ l.map Prod.fst ∨
      ∃ j, Function.update s.made i (some a) j = some c
    rcases eq_or_ne c a with rfl | hca
    · rw [Function.update_self]
      exact iff_of_true rfl (Or.inr ⟨i, Function.update_self ..⟩)
    · rw [hother hca, hs.live c]
      refine or_congr_right ⟨?_, ?_⟩
      · rintro ⟨j, hj⟩
        refine ⟨j, ?_⟩
        rw [Function.update_of_ne, hj]
        rintro rfl
        rw [hi] at hj
        cases hj
      · rintro ⟨j, hj⟩
        rcases update_some_eq_some.1 hj with ⟨-, rfl⟩ | ⟨-, hj⟩
        · exact absurd rfl hca
        · exact ⟨j, hj⟩

theorem link_holds (hs : Holds C s t) {i : ι} (hi : (s.made i).isSome) :
    ∃ s', C.step s (.link i : Act V Addr ι) = some (s', (Values.step C.fifo C.nothing t (.link i : Act V Addr ι)).2) ∧
      Holds C s' (Values.step C.fifo C.nothing t (.link i : Act V Addr ι)).1 := by
  obtain ⟨l, hs⟩ := hs
  obtain ⟨a, ha⟩ := Option.isSome_iff_exists.1 hi
  obtain ⟨v, hv, hnode⟩ := hs.pending i a ha
  obtain ⟨h', k', hlink, hrep, hframe⟩ := C.link_spec hs.rep hnode (hs.apart i a ha)
  have hstep : C.step s (.link i : Act V Addr ι) = some (⟨h', k', Function.update s.made i none⟩, .done) := by
    rw [Container.step, ha, Option.bind_some, hlink, Option.map_some]
  have hvalues : Values.step C.fifo C.nothing t (.link i : Act V Addr ι) =
      (⟨put C.fifo t.contents v, Function.update t.pending i none⟩, .done) := by
    rw [Values.step, hv]
  have hmem : ∀ c, c ∈ (put C.fifo l (a, v)).map Prod.fst ↔ c = a ∨ c ∈ l.map Prod.fst := fun c => by rw [map_put, mem_put]
  have hca : ∀ {j c}, j ≠ i → s.made j = some c → c ≠ a := by
    rintro j c hji hj rfl
    exact hji (hs.own j i c hj ha)
  rw [hvalues]
  refine ⟨_, hstep, _, hrep, ?_, fun j c hj => ?_, fun j hj => ?_, fun j c hj => ?_, fun j k c hj hk => ?_, fun c => ?_⟩
  · rw [map_put, hs.contents]
  · obtain ⟨hji, hj⟩ := update_none_eq_some.1 hj
    change ∃ w, Function.update t.pending i none j = some w ∧ h' c = some ⟨w, none⟩
    rw [Function.update_of_ne hji, hframe c (hca hji hj) (hs.apart j c hj)]
    exact hs.pending j c hj
  · change Function.update s.made i none j = none at hj
    change Function.update t.pending i none j = none
    rcases eq_or_ne j i with rfl | hji
    · exact Function.update_self ..
    · rw [Function.update_of_ne hji] at hj ⊢
      exact hs.idle j hj
  · obtain ⟨hji, hj⟩ := update_none_eq_some.1 hj
    rw [hmem, not_or]
    exact ⟨hca hji hj, hs.apart j c hj⟩
  · exact hs.own j k c (update_none_eq_some.1 hj).2 (update_none_eq_some.1 hk).2
  · change (h' c).isSome ↔ _ ∨ ∃ j, Function.update s.made i none j = some c
    rw [hmem, or_assoc]
    by_cases hin : c = a ∨ c ∈ l.map Prod.fst
    · exact iff_of_true (C.allocated hrep ((hmem c).2 hin)) (by rw [← or_assoc]; exact Or.inl hin)
    · rw [← or_assoc, or_iff_right hin]
      rw [not_or] at hin
      rw [hframe c hin.1 hin.2, hs.live c, or_iff_right hin.2]
      refine ⟨?_, fun hex => hex.imp fun j hj => (update_none_eq_some.1 hj).2⟩
      rintro ⟨j, hj⟩
      refine ⟨j, ?_⟩
      rw [Function.update_of_ne, hj]
      rintro rfl
      exact hin.1 (Option.some.inj (hj.symm.trans ha))

theorem pop_holds (hs : Holds C s t) {i : ι} (hi : s.made i = none) :
    ∃ s', C.step s (.pop i : Act V Addr ι) = some (s', .value (t.contents.headD C.nothing)) ∧
      Holds C s' { t with contents := t.contents.tail } := by
  obtain ⟨l, hs⟩ := hs
  cases l with
  | nil =>
    have hempty : t.contents = [] := hs.contents.symm
    refine ⟨s, ?_, [], { hs with contents := ?_ }⟩
    · rw [Container.step, if_pos hi, C.pop_nil hs.rep, hempty]
      rfl
    · rw [hempty]
      rfl
  | cons p l =>
    obtain ⟨a, v⟩ := p
    obtain ⟨h', k', hpop, hrep, hfreed, hframe⟩ := C.pop_cons hs.rep
    have hnodup := C.nodup hs.rep
    rw [List.map_cons, List.nodup_cons] at hnodup
    have hcontents := hs.contents
    rw [List.map_cons] at hcontents
    have hca : ∀ {j c}, s.made j = some c → c ≠ a ∧ c ∉ l.map Prod.fst := by
      intro j c hj
      have hapart := hs.apart _ _ hj
      rw [List.map_cons, List.mem_cons, not_or] at hapart
      exact hapart
    rw [← hcontents]
    refine ⟨⟨h', k', s.made⟩, ?_, l, hrep, rfl, fun j c hj => ?_, hs.idle, fun j c hj => (hca hj).2, hs.own, fun c => ?_⟩
    · rw [Container.step, if_pos hi, hpop]
      rfl
    · change ∃ w, t.pending j = some w ∧ h' c = some ⟨w, none⟩
      rw [hframe c (hca hj).1]
      exact hs.pending j c hj
    · change (h' c).isSome ↔ _ ∨ ∃ j, s.made j = some c
      rcases eq_or_ne c a with rfl | hne
      · rw [hfreed]
        refine iff_of_false Bool.false_ne_true ?_
        rintro (hin | ⟨j, hj⟩)
        · exact hnodup.1 hin
        · exact (hca hj).1 rfl
      · rw [hframe c hne, hs.live c, List.map_cons, List.mem_cons, or_iff_right hne]

/-- every step of every thread is one of the list -/
theorem step_holds (hs : Holds C s t) {act : Act V Addr ι} (hact : Possible s act) :
    ∃ s', C.step s act = some (s', (Values.step C.fifo C.nothing t act).2) ∧
      Holds C s' (Values.step C.fifo C.nothing t act).1 := by
  cases act with
  | new i v a => exact new_holds hs v hact.1 hact.2
  | link i => exact link_holds hs hact
  | pop i => exact pop_holds hs hact

theorem step_possible {act : Act V Addr ι} {r : St V Addr κ ι × Answer V} (h : C.step s act = some r) : Possible s act := by
  cases act with
  | new i v a => exact (Option.ite_none_right_eq_some.1 h).1
  | link i =>
    obtain ⟨a, ha, -⟩ := Option.bind_eq_some_iff.1 h
    exact Option.isSome_iff_exists.2 ⟨a, ha⟩
  | pop i => exact (Option.ite_none_right_eq_some.1 h).1

theorem Holds.step (hs : Holds C s t) {act : Act V Addr ι} {r : St V Addr κ ι × Answer V} (h : C.step s act = some r) :
    r.2 = (Values.step C.fifo C.nothing t act).2 ∧ Holds C r.1 (Values.step C.fifo C.nothing t act).1 := by
  obtain ⟨s', hstep, hs'⟩ := step_holds hs (step_possible h)
  obtain rfl := Option.some.inj (h.symm.trans hstep)
  exact ⟨rfl, hs'⟩

/-- the nodes under way after a step -/
def madeAfter (made : ι → Option Addr) : Act V Addr ι → ι → Option Addr
  | .new i _ a => Function.update made i (some a)
  | .link i => Function.update made i none
  | .pop _ => made

theorem made_step {act : Act V Addr ι} {r : St V Addr κ ι × Answer V} (h : C.step s act = some r) :
    r.1.made = madeAfter s.made act := by
  cases act with
  | new i v a =>
    obtain ⟨-, heq⟩ := Option.ite_none_right_eq_some.1 h
    obtain rfl := Option.some.inj heq
    rfl
  | link i =>
    obtain ⟨a, -, hmap⟩ := Option.bind_eq_some_iff.1 h
    obtain ⟨q, -, rfl⟩ := Option.map_eq_some_iff.1 hmap
    rfl
  | pop i =>
    obtain ⟨-, hmap⟩ := Option.ite_none_right_eq_some.1 h
    obtain ⟨q, -, rfl⟩ := Option.map_eq_some_iff.1 hmap
    rfl

/-- for every interleaving -/
theorem agrees (C : Container V Addr κ) (acts : List (Act V Addr ι))
    (hpossible : Machine.Meets (Machine.next C.step) Possible C.start acts) :
    Machine.Agrees C.step (Values.step C.fifo C.nothing) (Holds C) C.start Values.start acts := by
  refine (Machine.agrees_iff (C := Possible) (R := Holds C) ?_ ?_ (fun _ _ hs => hs) (holds_start C) acts).2 hpossible
  · intro s t act hs hact
    exact step_holds hs hact
  · intro s t act _ hnot s' heq
    exact hnot (step_possible heq)

end InterviewPrep.Guarded
