/-
`ThreadSafeQueue` of threadPool/threadSafeQueue.cpp and `ThreadSafeStack` of threadPool/threadPoolStack.cpp, used by any number of
threads, and the `main` of the two programs.

`push` makes the node, takes `mtx` and links the node; `pop` runs under `mtx`. `main` starts a thread for every value to be
pushed, joins them, and pops and prints until the answer is -1.

- `queue_agrees`, `stack_agrees`: for every interleaving of pushes and pops, no null pointer and no deleted node is dereferenced,
  every answer is that of a first-in first-out (last-in first-out) list, in the order in which the threads have had the lock,
  and no node is lost;
- `queue_prints`, `stack_prints`: however the threads are scheduled, the program ends, and has printed, in the order in which
  the threads have had the lock (against it), the values up to the first -1; the nodes behind that one are never deleted.
-/
import Mathlib.Data.List.TakeWhile
import InterviewPrep.Core.Guarded
import InterviewPrep.LinkedQueue

namespace InterviewPrep.ThreadSafe

open InterviewPrep.Guarded

variable {Addr : Type} [DecidableEq Addr]

/-! ## The two containers -/

/-- `push` of the queue, under the lock; `front` and `rear` are `head` and `tail` -/
def queuePush (h : NodeHeap ℤ Addr) (q : LinkedQueue.Queue Addr) (newNode : Addr) :
    Option (NodeHeap ℤ Addr × LinkedQueue.Queue Addr) :=
  LinkedQueue.linkIn h q newNode

/-- `pop` of the queue -/
def queuePop (h : NodeHeap ℤ Addr) (q : LinkedQueue.Queue Addr) : Option (NodeHeap ℤ Addr × LinkedQueue.Queue Addr × ℤ) :=
  LinkedQueue.dequeue h q

/-- `push` of the stack, under the lock -/
def stackPush (h : NodeHeap ℤ Addr) (head : Option Addr) (newNode : Addr) : Option (NodeHeap ℤ Addr × Option Addr) :=
  (h newNode).map fun node => (Function.update h newNode (some { node with next := head }), some newNode)

/-- `pop` of the stack -/
def stackPop (h : NodeHeap ℤ Addr) (head : Option Addr) : Option (NodeHeap ℤ Addr × Option Addr × ℤ) :=
  match head with
  | none => some (h, none, -1)
  | some oldHead => (h oldHead).map fun node => (Function.update h oldHead none, node.next, node.value)

variable {h : NodeHeap ℤ Addr} {head : Option Addr} {l : List (Addr × ℤ)} {a : Addr} {v : ℤ}

theorem stackPush_spec (hl : NodeChain h head l) (ha : h a = some ⟨v, none⟩) (hnew : a ∉ l.map Prod.fst) :
    ∃ h' head', stackPush h head a = some (h', head') ∧ NodeChain h' head' ((a, v) :: l) ∧
      ∀ c, c ≠ a → c ∉ l.map Prod.fst → h' c = h c := by
  refine ⟨_, _, by rw [stackPush, ha, Option.map_some], ?_, fun c hc _ => Function.update_of_ne hc ..⟩
  refine NodeChain.cons (hl.congr fun c hc => Function.update_of_ne ?_ _ _) (Function.update_self ..)
  rintro rfl
  exact hnew hc

theorem stackPop_spec (hl : NodeChain h head ((a, v) :: l)) :
    ∃ h' head', stackPop h head = some (h', head', v) ∧ NodeChain h' head' l ∧ h' a = none ∧ ∀ c, c ≠ a → h' c = h c := by
  obtain ⟨rfl, n, ha, hrest⟩ := hl.uncons
  have hnodup := hl.nodup
  rw [List.map_cons, List.nodup_cons] at hnodup
  refine ⟨_, _, by rw [stackPop, ha, Option.map_some], hrest.congr fun c hc => Function.update_of_ne ?_ _ _,
    Function.update_self .., fun c hc => Function.update_of_ne hc ..⟩
  rintro rfl
  exact hnodup.1 hc

theorem queuePop_spec {q : LinkedQueue.Queue Addr} (hq : LinkedQueue.IsQueue h q ((a, v) :: l)) :
    ∃ h' q', queuePop h q = some (h', q', v) ∧ LinkedQueue.IsQueue h' q' l ∧ h' a = none ∧ ∀ c, c ≠ a → h' c = h c := by
  have hfront : q.front = some a := hq.chain.head_eq
  rw [queuePop, LinkedQueue.dequeue, hfront]
  exact LinkedQueue.takeOut_spec hq

def queue : Container ℤ Addr (LinkedQueue.Queue Addr) where
  init := LinkedQueue.createQueue
  link := queuePush
  pop := queuePop
  nothing := -1
  fifo := true
  Rep := LinkedQueue.IsQueue
  rep_init := LinkedQueue.isQueue_create
  rep_congr := LinkedQueue.IsQueue.congr
  allocated hq := hq.chain.allocated
  nodup hq := hq.chain.nodup
  link_spec hq ha hnew := by
    obtain ⟨h', q', hlink, hq', hframe⟩ := LinkedQueue.linkIn_spec hq ha hnew
    exact ⟨h', q', hlink, hq', fun c _ hc => hframe c hc⟩
  pop_nil hq := by
    rw [queuePop, LinkedQueue.dequeue, hq.chain.head_eq]
    rfl
  pop_cons := queuePop_spec

def stack : Container ℤ Addr (Option Addr) where
  init := none
  link := stackPush
  pop := stackPop
  nothing := -1
  fifo := false
  Rep := NodeChain
  rep_init _ := NodeChain.nil
  rep_congr := NodeChain.congr
  allocated := NodeChain.allocated
  nodup := NodeChain.nodup
  link_spec := stackPush_spec
  pop_nil hl := by
    obtain rfl := hl.head_eq
    rfl
  pop_cons := stackPop_spec

section Calls

variable {ι : Type} [DecidableEq ι]

/-- **First in, first out, for every interleaving.** Any number of threads push and pop, in any order of their steps: no null
pointer and no deleted node is dereferenced, and `pop` answers what a first-in first-out list answers, where a value is in from
the moment on at which its thread has had `mtx`. The nodes allocated are those of the queue and those made by a `push` that
waits for `mtx`. -/
theorem queue_agrees (acts : List (Act ℤ Addr ι)) (hpossible : Machine.Meets (Machine.next queue.step) Possible queue.start acts) :
    Machine.Agrees queue.step (Values.step true (-1)) (Holds queue) queue.start Values.start acts :=
  agrees queue acts hpossible

/-- **Last in, first out, for every interleaving**, in the same way -/
theorem stack_agrees (acts : List (Act ℤ Addr ι)) (hpossible : Machine.Meets (Machine.next stack.step) Possible stack.start acts) :
    Machine.Agrees stack.step (Values.step false (-1)) (Holds stack) stack.start Values.start acts :=
  agrees stack acts hpossible

end Calls

/-- a node made first and linked last, and an address given out again -/
def crossed : List (Act ℤ ℕ ℕ) :=
  [.new 0 10 1, .new 1 20 2, .link 1, .pop 2, .new 2 30 2, .link 0, .link 2, .pop 0, .pop 1, .pop 0]

theorem crossed_queue : Machine.Meets (Machine.next queue.step) Possible queue.start crossed := by
  refine .cons rfl ⟨rfl, rfl⟩ (.cons rfl ⟨rfl, rfl⟩ (.cons rfl rfl (.cons rfl rfl (.cons rfl ⟨rfl, rfl⟩ (.cons rfl rfl ?_)))))
  exact .cons rfl rfl (.cons rfl rfl (.cons rfl rfl (.cons rfl rfl trivial)))

theorem crossed_stack : Machine.Meets (Machine.next stack.step) Possible stack.start crossed := by
  refine .cons rfl ⟨rfl, rfl⟩ (.cons rfl ⟨rfl, rfl⟩ (.cons rfl rfl (.cons rfl rfl (.cons rfl ⟨rfl, rfl⟩ (.cons rfl rfl ?_)))))
  exact .cons rfl rfl (.cons rfl rfl (.cons rfl rfl (.cons rfl rfl trivial)))

theorem queue_agrees_crossed :
    (Machine.runTotal (Values.step true (-1)) Values.start crossed).2.filter (· ≠ .done) =
        [.value 20, .value 10, .value 30, .value (-1)] ∧
      Machine.Agrees queue.step (Values.step true (-1)) (Holds queue) queue.start Values.start crossed :=
  ⟨by decide, queue_agrees crossed crossed_queue⟩

theorem stack_agrees_crossed :
    (Machine.runTotal (Values.step false (-1)) Values.start crossed).2.filter (· ≠ .done) =
        [.value 20, .value 30, .value 10, .value (-1)] ∧
      Machine.Agrees stack.step (Values.step false (-1)) (Holds stack) stack.start Values.start crossed :=
  ⟨by decide, stack_agrees crossed crossed_stack⟩

/-! ## `main` -/

/-- threads `some i`, and `main` as `none` -/
structure Program (Addr κ ι : Type) where
  sys : St ℤ Addr κ (Option ι)
  /-- the threads that have called `push` -/
  started : Finset ι
  /-- the threads that have had the lock, in that order -/
  linked : List ι
  /-- what `main` has printed -/
  out : List ℤ
  ended : Bool

/-- `new`: `a` is what the allocation returns -/
inductive Move (Addr ι : Type) where
  | new (i : ι) (a : Addr)
  | link (i : ι)
  | pop

section Program

variable {κ ι : Type} [DecidableEq ι] [Fintype ι]

def Program.start (C : Container ℤ Addr κ) : Program Addr κ ι := ⟨C.start, ∅, [], [], false⟩

/-- `pushToQueue`, `pushToStack` for every thread; `main` pops when all threads have been joined -/
def Program.step (C : Container ℤ Addr κ) (vals : ι → ℤ) (p : Program Addr κ ι) : Move Addr ι → Option (Program Addr κ ι)
  | .new i a =>
    if i ∉ p.started then
      (C.step p.sys (.new (some i) (vals i) a)).map fun r => { p with sys := r.1, started := insert i p.started }
    else none
  | .link i => (C.step p.sys (.link (some i))).map fun r => { p with sys := r.1, linked := p.linked ++ [i] }
  | .pop =>
    if p.ended = false ∧ ∀ i, i ∈ p.linked then
      (C.step p.sys (.pop none)).map fun r =>
        match r.2 with
        | .value v => if v = -1 then { p with sys := r.1, ended := true } else { p with sys := r.1, out := p.out ++ [v] }
        | .done => { p with sys := r.1 }
    else none

/-- the list that the pushes of these values make -/
def arranged (fifo : Bool) (l : List ℤ) : List ℤ := bif fifo then l else l.reverse

omit [DecidableEq Addr] in
theorem arranged_concat (fifo : Bool) (l : List ℤ) (v : ℤ) : arranged fifo (l ++ [v]) = put fifo (arranged fifo l) v := by
  cases fifo <;> simp [arranged, put]

/-- the values left are behind those printed; at the end a -1 has gone, too -/
def Left (all out contents : List ℤ) : Bool → Prop
  | false => out.Forall (· ≠ -1) ∧ all = out ++ contents
  | true => out = all.takeWhile (· ≠ -1) ∧ contents = (all.dropWhile (· ≠ -1)).tail

structure Inv (C : Container ℤ Addr κ) (vals : ι → ℤ) (p : Program Addr κ ι) (t : Values ℤ (Option ι)) : Prop where
  holds : Holds C p.sys t
  main : p.sys.made none = none
  started : ∀ i a, p.sys.made (some i) = some a → i ∈ p.started
  linked : ∀ i, i ∈ p.linked ↔ i ∈ p.started ∧ p.sys.made (some i) = none
  nodup : p.linked.Nodup
  pending : ∀ i v, t.pending (some i) = some v → v = vals i
  left : Left (arranged C.fifo (p.linked.map vals)) p.out t.contents p.ended
  early : p.out ≠ [] ∨ p.ended = true → ∀ i, i ∈ p.linked

variable {C : Container ℤ Addr κ} {vals : ι → ℤ} {p p' : Program Addr κ ι} {t : Values ℤ (Option ι)}

omit [DecidableEq Addr] [DecidableEq ι] [Fintype ι] in
theorem inv_start (C : Container ℤ Addr κ) (vals : ι → ℤ) : Inv C vals (Program.start C) Values.start where
  holds := holds_start C
  main := rfl
  started _ _ h := by cases h
  linked _ := by simp [Program.start]
  nodup := List.nodup_nil
  pending _ _ h := by cases h
  left := by
    refine ⟨trivial, ?_⟩
    change arranged C.fifo [] = []
    cases C.fifo <;> rfl
  early h := by simp [Program.start] at h

theorem new_inv (hp : Inv C vals p t) {i : ι} {a : Addr} (h : p.step C vals (.new i a) = some p') : ∃ t', Inv C vals p' t' := by
  obtain ⟨hi, hmap⟩ := Option.ite_none_right_eq_some.1 h
  obtain ⟨r, hstep, rfl⟩ := Option.map_eq_some_iff.1 hmap
  obtain ⟨-, hholds⟩ := hp.holds.step hstep
  have hmade := made_step hstep
  have hpossible : p.sys.made (some i) = none := (step_possible hstep).1
  refine ⟨_, hholds, ?_, fun j c hj => ?_, fun j => ?_, hp.nodup, fun j v hj => ?_, hp.left, hp.early⟩
  · change r.1.made none = none
    rw [hmade, madeAfter, Function.update_of_ne (by simp), hp.main]
  · change r.1.made (some j) = some c at hj
    change j ∈ insert i p.started
    rw [hmade, madeAfter] at hj
    rcases eq_or_ne j i with rfl | hji
    · exact Finset.mem_insert_self ..
    · rw [Function.update_of_ne (by simpa using hji)] at hj
      exact Finset.mem_insert_of_mem (hp.started j c hj)
  · change j ∈ p.linked ↔ j ∈ insert i p.started ∧ r.1.made (some j) = none
    rw [hmade, madeAfter, hp.linked j, Finset.mem_insert]
    rcases eq_or_ne j i with rfl | hji
    · rw [Function.update_self]
      exact iff_of_false (fun hj => hi hj.1) fun hj => by cases hj.2
    · rw [Function.update_of_ne (by simpa using hji), or_iff_right hji]
  · change Function.update t.pending (some i) (some (vals i)) (some j) = some v at hj
    rcases eq_or_ne j i with rfl | hji
    · rw [Function.update_self] at hj
      exact (Option.some.inj hj).symm
    · rw [Function.update_of_ne (by simpa using hji)] at hj
      exact hp.pending j v hj

theorem link_inv (hp : Inv C vals p t) {i : ι} (h : p.step C vals (.link i) = some p') : ∃ t', Inv C vals p' t' := by
  obtain ⟨r, hstep, rfl⟩ := Option.map_eq_some_iff.1 h
  obtain ⟨-, hholds⟩ := hp.holds.step hstep
  have hmade := made_step hstep
  obtain ⟨a, ha⟩ := Option.isSome_iff_exists.1 (step_possible hstep : (p.sys.made (some i)).isSome)
  have hstarted : i ∈ p.started := hp.started i a ha
  have hnot : i ∉ p.linked := fun hi => by
    rw [hp.linked i, ha] at hi
    cases hi.2
  obtain ⟨v, hv⟩ : ∃ v, t.pending (some i) = some v := by
    obtain ⟨l, hl⟩ := hp.holds
    obtain ⟨v, hv, -⟩ := hl.pending (some i) a ha
    exact ⟨v, hv⟩
  obtain rfl := hp.pending i v hv
  -- `main` has not started to pop
  have hearly : ¬(p.out ≠ [] ∨ p.ended = true) := fun hor => hnot (hp.early hor i)
  rw [not_or, not_not, Bool.not_eq_true] at hearly
  have hleft := hp.left
  rw [hearly.1, hearly.2] at hleft
  rw [Values.step, hv] at hholds
  refine ⟨_, hholds, ?_, fun j c hj => ?_, fun j => ?_, ?_, fun j v hj => ?_, ?_, ?_⟩
  · change r.1.made none = none
    rw [hmade, madeAfter, Function.update_of_ne (by simp), hp.main]
  · change r.1.made (some j) = some c at hj
    change j ∈ p.started
    rw [hmade, madeAfter] at hj
    rcases eq_or_ne j i with rfl | hji
    · exact hstarted
    · rw [Function.update_of_ne (by simpa using hji)] at hj
      exact hp.started j c hj
  · change j ∈ p.linked ++ [i] ↔ j ∈ p.started ∧ r.1.made (some j) = none
    rw [hmade, madeAfter, List.mem_append, List.mem_singleton, hp.linked j]
    rcases eq_or_ne j i with rfl | hji
    · rw [Function.update_self]
      exact iff_of_true (Or.inr rfl) ⟨hstarted, rfl⟩
    · rw [Function.update_of_ne (by simpa using hji), or_iff_left hji]
  · exact List.nodup_append.2 ⟨hp.nodup, List.nodup_singleton i, fun j hj k hk => by
      rintro rfl
      exact hnot (by rwa [List.mem_singleton.1 hk] at hj)⟩
  · change Function.update t.pending (some i) none (some j) = some v at hj
    rcases eq_or_ne j i with rfl | hji
    · rw [Function.update_self] at hj
      cases hj
    · rw [Function.update_of_ne (by simpa using hji)] at hj
      exact hp.pending j v hj
  · change Left (arranged C.fifo ((p.linked ++ [i]).map vals)) p.out (put C.fifo t.contents (vals i)) p.ended
    rw [hearly.1, hearly.2, List.map_append, List.map_cons, List.map_nil, arranged_concat, hleft.2]
    exact ⟨trivial, rfl⟩
  · intro hor
    rw [hearly.1, hearly.2] at hor
    simp at hor

/-- `main` prints the first value, or ends with it -/
theorem Left.pop {all out contents : List ℤ} (h : Left all out contents false) :
    if contents.headD (-1) = -1 then Left all out contents.tail true
    else Left all (out ++ [contents.headD (-1)]) contents.tail false := by
  obtain ⟨hout, rfl⟩ := h
  rw [List.forall_iff_forall_mem] at hout
  have hkeep : ∀ v ∈ out, decide (v ≠ -1) = true := fun v hv => decide_eq_true (hout v hv)
  cases contents with
  | nil =>
    rw [List.headD_nil, if_pos rfl, Left, List.append_nil, List.takeWhile_eq_self_iff.2 hkeep, List.dropWhile_eq_nil_iff.2 hkeep]
    exact ⟨rfl, rfl⟩
  | cons v contents =>
    rw [List.headD_cons]
    split_ifs with hv
    · subst hv
      rw [Left, List.takeWhile_append_of_pos hkeep, List.dropWhile_append_of_pos hkeep]
      simp
    · refine ⟨List.forall_iff_forall_mem.2 fun w hw => ?_, ?_⟩
      · rcases List.mem_append.1 hw with hw | hw
        · exact hout w hw
        · rwa [List.mem_singleton.1 hw]
      · rw [List.append_assoc, List.singleton_append, List.tail_cons]

theorem pop_inv (hC : C.nothing = -1) (hp : Inv C vals p t) (h : p.step C vals .pop = some p') : ∃ t', Inv C vals p' t' := by
  obtain ⟨⟨hend, hall⟩, hmap⟩ := Option.ite_none_right_eq_some.1 h
  obtain ⟨r, hstep, hr⟩ := Option.map_eq_some_iff.1 hmap
  obtain ⟨hans, hholds⟩ := hp.holds.step hstep
  have hmade := made_step hstep
  have hleft := hp.left
  rw [hend] at hleft
  have hpop := hleft.pop
  have hmain : r.1.made none = none := (congrFun hmade none).trans hp.main
  have hstarted : ∀ i a, r.1.made (some i) = some a → i ∈ p.started := fun i a hi =>
    hp.started i a ((congrFun hmade (some i)).symm.trans hi)
  have hlinked : ∀ i, i ∈ p.linked ↔ i ∈ p.started ∧ r.1.made (some i) = none := by
    rw [hmade]
    exact hp.linked
  rw [hans, Values.step, hC] at hr
  dsimp only at hr
  split_ifs at hr hpop with hv
  · subst hr
    exact ⟨_, hholds, hmain, hstarted, hlinked, hp.nodup, hp.pending, hpop, fun _ => hall⟩
  · subst hr
    refine ⟨_, hholds, hmain, hstarted, hlinked, hp.nodup, hp.pending, ?_, fun _ => hall⟩
    change Left _ _ _ p.ended
    rw [hend]
    exact hpop

theorem step_inv (hC : C.nothing = -1) {mv : Move Addr ι} (h : p.step C vals mv = some p') (hp : ∃ t, Inv C vals p t) :
    ∃ t, Inv C vals p' t := by
  obtain ⟨t, hp⟩ := hp
  cases mv with
  | new i a => exact new_inv hp h
  | link i => exact link_inv hp h
  | pop => exact pop_inv hC hp h

/-- steps taken -/
def Program.count (p : Program Addr κ ι) : ℕ := p.started.card + p.linked.length + p.out.length + bif p.ended then 1 else 0

theorem count_step {mv : Move Addr ι} (h : p.step C vals mv = some p') (hp : ∃ t, Inv C vals p t) :
    p'.count = p.count + 1 := by
  cases mv with
  | new i a =>
    obtain ⟨hi, hmap⟩ := Option.ite_none_right_eq_some.1 h
    obtain ⟨r, -, rfl⟩ := Option.map_eq_some_iff.1 hmap
    simp only [Program.count, Finset.card_insert_of_notMem hi]
    omega
  | link i =>
    obtain ⟨r, -, rfl⟩ := Option.map_eq_some_iff.1 h
    simp only [Program.count, List.length_append, List.length_singleton]
    omega
  | pop =>
    obtain ⟨t, hp⟩ := hp
    obtain ⟨⟨hend, -⟩, hmap⟩ := Option.ite_none_right_eq_some.1 h
    obtain ⟨r, hstep, hr⟩ := Option.map_eq_some_iff.1 hmap
    rw [(hp.holds.step hstep).1, Values.step] at hr
    dsimp only at hr
    split_ifs at hr
    · subst hr
      simp [Program.count, hend]
    · subst hr
      simp only [Program.count, hend, List.length_append, List.length_singleton, cond_false]
      omega

omit [DecidableEq Addr] [DecidableEq ι] in
theorem count_le (hp : Inv C vals p t) : p.count ≤ 3 * Fintype.card ι + 1 := by
  have hstarted : p.started.card ≤ Fintype.card ι := Finset.card_le_univ p.started
  have hlinked : p.linked.length ≤ Fintype.card ι := hp.nodup.length_le_card
  have hlength : (arranged C.fifo (p.linked.map vals)).length = p.linked.length := by
    cases C.fifo <;> simp [arranged]
  have hout : p.out.length ≤ p.linked.length := by
    rw [← hlength]
    have hleft := hp.left
    cases hend : p.ended with
    | false =>
      rw [hend] at hleft
      rw [hleft.2, List.length_append]
      exact Nat.le_add_right _ _
    | true =>
      rw [hend] at hleft
      rw [hleft.1]
      exact (List.takeWhile_prefix _).length_le
  have hended : (bif p.ended then 1 else 0) ≤ 1 := by cases p.ended <;> decide
  rw [Program.count]
  omega

/-- while `main` has not ended, some step is possible -/
theorem exists_step [Infinite Addr] (hp : Inv C vals p t) (hend : p.ended = false) : ∃ mv p', p.step C vals mv = some p' := by
  by_cases hall : ∀ i, i ∈ p.linked
  · obtain ⟨s', hstep, -⟩ := step_holds hp.holds (show Possible p.sys (.pop none : Act ℤ Addr (Option ι)) from hp.main)
    refine ⟨.pop, Option.isSome_iff_exists.1 ?_⟩
    rw [Program.step, if_pos ⟨hend, hall⟩, hstep, Option.map_some, Option.isSome_some]
  · obtain ⟨i, hi⟩ := not_forall.1 hall
    by_cases hstarted : i ∈ p.started
    · have hmade : p.sys.made (some i) ≠ none := fun hnone => hi ((hp.linked i).2 ⟨hstarted, hnone⟩)
      obtain ⟨s', hstep, -⟩ := step_holds hp.holds
        (show Possible p.sys (.link (some i) : Act ℤ Addr (Option ι)) from Option.isSome_iff_ne_none.2 hmade)
      refine ⟨.link i, Option.isSome_iff_exists.1 ?_⟩
      rw [Program.step, hstep, Option.map_some, Option.isSome_some]
    · have hmade : p.sys.made (some i) = none := by
        by_contra hne
        obtain ⟨a, ha⟩ := Option.ne_none_iff_exists'.1 hne
        exact hstarted (hp.started i a ha)
      obtain ⟨l, hl⟩ := hp.holds
      obtain ⟨a, ha⟩ := Infinite.exists_notMem_finset
        ((l.map Prod.fst).toFinset ∪ Finset.univ.biUnion fun j => (p.sys.made j).toFinset)
      have hfree : p.sys.heap a = none := by
        rw [← Option.not_isSome_iff_eq_none, hl.live a]
        simpa using ha
      obtain ⟨s', hstep, -⟩ := step_holds hp.holds (show Possible p.sys (.new (some i) (vals i) a) from ⟨hmade, hfree⟩)
      refine ⟨.new i a, Option.isSome_iff_exists.1 ?_⟩
      rw [Program.step, if_pos hstarted, hstep, Option.map_some, Option.isSome_some]

/-- when `main` has ended, nothing is left to be done -/
theorem stuck_of_ended (hp : Inv C vals p t) (hend : p.ended = true) (mv : Move Addr ι) : p.step C vals mv = none := by
  have hall := hp.early (Or.inr hend)
  cases mv with
  | new i a => rw [Program.step, if_neg fun hnew => hnew ((hp.linked i).1 (hall i)).1]
  | link i =>
    rw [Program.step, Container.step, ((hp.linked i).1 (hall i)).2, Option.bind_none, Option.map_none]
  | pop => rw [Program.step, if_neg fun hboth => absurd (hend.symm.trans hboth.1) (by decide)]

/-- for every scheduling of the threads -/
theorem prints [Infinite Addr] (hC : C.nothing = -1) (vals : ι → ℤ) {moves : List (Move Addr ι)}
    (hrun : Machine.exec (Program.step C vals) (Program.start C) moves = some p) :
    moves.length ≤ 3 * Fintype.card ι + 1 ∧ ((∀ mv, p.step C vals mv = none) ↔ p.ended = true) ∧ (p.ended = true →
      p.linked.Nodup ∧ (∀ i, i ∈ p.linked) ∧ p.out = (arranged C.fifo (p.linked.map vals)).takeWhile (· ≠ -1) ∧
        ∃ l, C.Rep p.sys.heap p.sys.cont l ∧
          l.map Prod.snd = ((arranged C.fifo (p.linked.map vals)).dropWhile (· ≠ -1)).tail ∧
          ∀ a, (p.sys.heap a).isSome ↔ a ∈ l.map Prod.fst) := by
  have hstart : ∃ t, Inv C vals (Program.start C) t := ⟨_, inv_start C vals⟩
  obtain ⟨t, hp⟩ := Machine.exec_inv (P := fun p => ∃ t, Inv C vals p t) (fun _ _ _ hstep hp => step_inv hC hstep hp) hrun hstart
  refine ⟨?_, ⟨fun hstuck => ?_, stuck_of_ended hp⟩, fun hend => ?_⟩
  · have hstep : ∀ (p : Program Addr κ ι) (mv : Move Addr ι) p', p.step C vals mv = some p' → (∃ t, Inv C vals p t) →
        (∃ t, Inv C vals p' t) ∧ 3 * Fintype.card ι + 1 - p'.count + 1 ≤ 3 * Fintype.card ι + 1 - p.count + 0 := by
      intro p mv p' hstep hp
      obtain ⟨t', hp'⟩ := step_inv hC hstep hp
      have hle := count_le hp'
      have hcount := count_step hstep hp
      exact ⟨⟨t', hp'⟩, by omega⟩
    have hlength := Machine.exec_length_le hstep hrun hstart
    rw [List.map_const', List.sum_replicate, smul_zero, add_zero] at hlength
    omega
  · by_contra hne
    obtain ⟨mv, p', hstep⟩ := exists_step hp (Bool.eq_false_iff.2 hne)
    rw [hstuck mv] at hstep
    cases hstep
  · have hall := hp.early (Or.inr hend)
    have hleft := hp.left
    rw [hend] at hleft
    obtain ⟨l, hl⟩ := hp.holds
    refine ⟨hp.nodup, hall, hleft.1, l, hl.rep, hl.contents.trans hleft.2, fun a => (hl.live a).trans (or_iff_left ?_)⟩
    rintro ⟨i, hi⟩
    cases i with
    | none =>
      rw [hp.main] at hi
      cases hi
    | some i =>
      rw [((hp.linked i).1 (hall i)).2] at hi
      cases hi

end Program

/-- **What `main` of the queue prints.** Any number of threads, each of which pushes its value, are scheduled in any way. The
program has ended after at most three steps for each thread and one more, and it stops only where `main` has ended. It has printed
the values in the order in which the threads have had `mtx`, up to the first -1; the nodes of the values behind that -1 are still
there, and no others. -/
theorem queue_prints {ι : Type} [DecidableEq ι] [Fintype ι] [Infinite Addr] (vals : ι → ℤ) {moves : List (Move Addr ι)}
    {p : Program Addr (LinkedQueue.Queue Addr) ι}
    (hrun : Machine.exec (Program.step queue vals) (Program.start queue) moves = some p) :
    moves.length ≤ 3 * Fintype.card ι + 1 ∧ ((∀ mv, p.step queue vals mv = none) ↔ p.ended = true) ∧ (p.ended = true →
      p.linked.Nodup ∧ (∀ i, i ∈ p.linked) ∧ p.out = (p.linked.map vals).takeWhile (· ≠ -1) ∧
        ∃ l, LinkedQueue.IsQueue p.sys.heap p.sys.cont l ∧
          l.map Prod.snd = ((p.linked.map vals).dropWhile (· ≠ -1)).tail ∧
          ∀ a, (p.sys.heap a).isSome ↔ a ∈ l.map Prod.fst) :=
  prints rfl vals hrun

/-- **What `main` of the stack prints**, in the same way: the last value first -/
theorem stack_prints {ι : Type} [DecidableEq ι] [Fintype ι] [Infinite Addr] (vals : ι → ℤ) {moves : List (Move Addr ι)}
    {p : Program Addr (Option Addr) ι} (hrun : Machine.exec (Program.step stack vals) (Program.start stack) moves = some p) :
    moves.length ≤ 3 * Fintype.card ι + 1 ∧ ((∀ mv, p.step stack vals mv = none) ↔ p.ended = true) ∧ (p.ended = true →
      p.linked.Nodup ∧ (∀ i, i ∈ p.linked) ∧ p.out = (p.linked.map vals).reverse.takeWhile (· ≠ -1) ∧
        ∃ l, NodeChain p.sys.heap p.sys.cont l ∧
          l.map Prod.snd = ((p.linked.map vals).reverse.dropWhile (· ≠ -1)).tail ∧
          ∀ a, (p.sys.heap a).isSome ↔ a ∈ l.map Prod.fst) :=
  prints rfl vals hrun

/-- one of the two values is -1 -/
def sevenOrNot (i : Bool) : ℤ := bif i then -1 else 7

def sevenFirst : List (Move ℕ Bool) := [.new true 1, .new false 2, .link false, .link true, .pop]

theorem queue_seven_ended :
    (Machine.exec (Program.step queue sevenOrNot) (Program.start queue) (sevenFirst ++ [Move.pop])).map
      (fun p => (p.ended, p.linked)) = some (true, [false, true]) := rfl

theorem queue_prints_seven :
    ∃ p, Machine.exec (Program.step queue sevenOrNot) (Program.start queue) (sevenFirst ++ [Move.pop]) = some p ∧
      (∀ mv, p.step queue sevenOrNot mv = none) ∧ p.out = [7] ∧
      ∃ l, LinkedQueue.IsQueue p.sys.heap p.sys.cont l ∧ l.map Prod.snd = [] ∧
        ∀ a, (p.sys.heap a).isSome ↔ a ∈ l.map Prod.fst := by
  obtain ⟨p, hrun, heq⟩ := Option.map_eq_some_iff.1 queue_seven_ended
  obtain ⟨hend, hlinked⟩ := Prod.mk.inj heq
  obtain ⟨-, hstops, hends⟩ := queue_prints sevenOrNot hrun
  obtain ⟨-, -, hout, hleft⟩ := hends hend
  rw [hlinked] at hout hleft
  exact ⟨p, hrun, hstops.2 hend, hout, hleft⟩

theorem stack_nothing_ended :
    (Machine.exec (Program.step stack sevenOrNot) (Program.start stack) sevenFirst).map (fun p => (p.ended, p.linked)) =
      some (true, [false, true]) := rfl

/-- the -1 comes out first, and the other node is lost -/
theorem stack_prints_nothing :
    ∃ p, Machine.exec (Program.step stack sevenOrNot) (Program.start stack) sevenFirst = some p ∧
      (∀ mv, p.step stack sevenOrNot mv = none) ∧ p.out = [] ∧
      ∃ l, NodeChain p.sys.heap p.sys.cont l ∧ l.map Prod.snd = [7] ∧ ∀ a, (p.sys.heap a).isSome ↔ a ∈ l.map Prod.fst := by
  obtain ⟨p, hrun, heq⟩ := Option.map_eq_some_iff.1 stack_nothing_ended
  obtain ⟨hend, hlinked⟩ := Prod.mk.inj heq
  obtain ⟨-, hstops, hends⟩ := stack_prints sevenOrNot hrun
  obtain ⟨-, -, hout, hleft⟩ := hends hend
  rw [hlinked] at hout hleft
  exact ⟨p, hrun, hstops.2 hend, hout, hleft⟩

end InterviewPrep.ThreadSafe
