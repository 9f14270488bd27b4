/-
The stack of threadPool/lockFreeStack.cpp (`LockFreeStack`), used by any number of threads.

Steps of `push`: `new` (any address that is not allocated), load of `head` into the new node, compare-and-exchange, which
may fail for no reason and then stores the present `head` in the node. Steps of `pop`: load of `head`, read of
`oldHead->next`, compare-and-exchange, which loads `head` again when it fails, and after success the read of the value and
the `delete`. They are interleaved in any order. A read of a node that is not allocated is a fault, and ends the run.

`pop` deletes its node at once. Another `pop` may have loaded the same address before: it then reads a deleted node, or, if
the address has been given out again in between, its compare-and-exchange succeeds on another node than it has looked at.

- `values_accounted`: if no node is deleted while another `pop` holds its address in `oldHead`, then in every state of the
  run the chain from `head` is finite, without repetition, and allocated, no deleted node has been read, and the values
  pushed are, with multiplicity, those of nodes not linked yet, those in the chain, those of nodes that a `pop` has unlinked
  and will return, and those returned;
- `read_after_delete`, `dangling_head` are runs in which one of these fails.
-/
import InterviewPrep.Core.HeapChain
import InterviewPrep.Core.Machine
import InterviewPrep.Core.Threads

namespace InterviewPrep.ThreadPool.LockFreeStack

/-! ## Model -/

structure Node (Addr : Type) where
  value : ℤ
  next : Option Addr

/-- where a thread is -/
inductive Pc (Addr : Type) where
  | idle
  /-- `push`: the node is made -/
  | made (newNode : Addr)
  /-- `push`: about to exchange -/
  | linking (newNode : Addr)
  /-- `pop`: `oldHead` is loaded -/
  | loaded (oldHead : Option Addr)
  /-- `pop`: `oldHead->next` is read, about to exchange -/
  | expecting (oldHead : Addr) (next : Option Addr)
  /-- `pop`: exchanged -/
  | won (oldHead : Addr)
  /-- `pop`: about to delete -/
  | valued (oldHead : Addr) (value : ℤ)

structure St (ι Addr : Type) where
  mem : Addr → Option (Node Addr)
  head : Option Addr
  pc : ι → Pc Addr
  /-- arguments of `push` -/
  pushed : Multiset ℤ
  /-- what `pop` has returned, the answers to an empty stack left out -/
  returned : Multiset ℤ
  /-- a node that is not allocated was read or deleted -/
  fault : Bool

/-- `weak`: the exchange fails although it could succeed -/
inductive Act (ι Addr : Type) where
  | new (i : ι) (value : ℤ) (a : Addr)
  | loadPush (i : ι)
  | exchangePush (i : ι) (weak : Bool)
  | loadPop (i : ι)
  | returnEmpty (i : ι)
  | readNext (i : ι)
  | exchangePop (i : ι) (weak : Bool)
  | readValue (i : ι)
  | delete (i : ι)

variable {ι Addr : Type} [DecidableEq ι] [DecidableEq Addr]

namespace St

def init : St ι Addr := ⟨fun _ => none, none, fun _ => .idle, 0, 0, false⟩

def setPc (s : St ι Addr) (i : ι) (pc : Pc Addr) : St ι Addr := { s with pc := Function.update s.pc i pc }

def setHead (s : St ι Addr) (head : Option Addr) : St ι Addr := { s with head := head }

def setMem (s : St ι Addr) (a : Addr) (node : Option (Node Addr)) : St ι Addr :=
  { s with mem := Function.update s.mem a node }

def faulty (s : St ι Addr) : St ι Addr := { s with fault := true }

/-- run `f` on a node; a node that is not there is a fault -/
def withNode (s : St ι Addr) (a : Addr) (f : Node Addr → St ι Addr) : St ι Addr := (s.mem a).elim s.faulty f

/-- the links of the nodes that are allocated -/
def link (s : St ι Addr) (a : Addr) : Option (Option Addr) := (s.mem a).map Node.next

end St

def step (s : St ι Addr) (act : Act ι Addr) : Option (St ι Addr) :=
  if s.fault = true then none
  else match act with
  | .new i value a =>
    match s.pc i, s.mem a with
    | .idle, none => some { (s.setMem a (some ⟨value, none⟩)).setPc i (.made a) with pushed := value ::ₘ s.pushed }
    | _, _ => none
  | .loadPush i =>
    match s.pc i with
    | .made a => some (s.withNode a fun node => (s.setMem a (some ⟨node.value, s.head⟩)).setPc i (.linking a))
    | _ => none
  | .exchangePush i weak =>
    match s.pc i with
    | .linking a => some (s.withNode a fun node =>
        if s.head = node.next ∧ weak = false then (s.setHead (some a)).setPc i .idle
        else (s.setMem a (some ⟨node.value, s.head⟩)).setPc i (.linking a))
    | _ => none
  | .loadPop i =>
    match s.pc i with
    | .idle => some (s.setPc i (.loaded s.head))
    | _ => none
  | .returnEmpty i =>
    match s.pc i with
    | .loaded none => some (s.setPc i .idle)
    | _ => none
  | .readNext i =>
    match s.pc i with
    | .loaded (some a) => some (s.withNode a fun node => s.setPc i (.expecting a node.next))
    | _ => none
  | .exchangePop i weak =>
    match s.pc i with
    | .expecting a next => some (
        if s.head = some a ∧ weak = false then (s.setHead next).setPc i (.won a) else s.setPc i (.loaded s.head))
    | _ => none
  | .readValue i =>
    match s.pc i with
    | .won a => some (s.withNode a fun node => s.setPc i (.valued a node.value))
    | _ => none
  | .delete i =>
    match s.pc i with
    | .valued a value => some (s.withNode a fun _ =>
        { (s.setMem a none).setPc i .idle with returned := value ::ₘ s.returned })
    | _ => none

namespace Pc

/-- the node of a `push`, not linked yet -/
def unlinked : Pc Addr → Option Addr
  | .made a => some a
  | .linking a => some a
  | _ => none

/-- the node that a `pop` has unlinked -/
def taken : Pc Addr → Option Addr
  | .won a => some a
  | .valued a _ => some a
  | _ => none

/-- the address that a `pop` goes by -/
def seen : Pc Addr → Option Addr
  | .loaded a => a
  | .expecting a _ => some a
  | _ => none

/-- the node that nobody else uses -/
def node (pc : Pc Addr) : Option Addr := pc.unlinked <|> pc.taken

end Pc

/-- a node is deleted only when no other `pop` goes by its address -/
def Clear (s : St ι Addr) : Act ι Addr → Prop
  | .delete i => ∀ a v, s.pc i = .valued a v → ∀ j ≠ i, (s.pc j).seen ≠ some a
  | _ => True

/-- the value of a node -/
def valueAt (mem : Addr → Option (Node Addr)) (a : Addr) : Multiset ℤ := (mem a).elim 0 fun node => {node.value}

def chainValues (mem : Addr → Option (Node Addr)) (l : List Addr) : Multiset ℤ := (l.map (valueAt mem)).sum

/-- values of the nodes not linked yet -/
def unlinkedValues [Fintype ι] (s : St ι Addr) : Multiset ℤ := ∑ i, (s.pc i).unlinked.elim 0 (valueAt s.mem)

/-- values of the nodes unlinked by a `pop` that has not returned -/
def takenValues [Fintype ι] (s : St ι Addr) : Multiset ℤ := ∑ i, (s.pc i).taken.elim 0 (valueAt s.mem)

omit [DecidableEq ι] in
@[simp] theorem setMem_self (s : St ι Addr) (a : Addr) (x : Option (Node Addr)) : (s.setMem a x).mem a = x :=
  Function.update_self ..

omit [DecidableEq ι] in
theorem setMem_of_ne (s : St ι Addr) {a b : Addr} (hne : b ≠ a) (x : Option (Node Addr)) :
    (s.setMem a x).mem b = s.mem b := Function.update_of_ne hne ..

omit [DecidableEq ι] in
theorem link_setMem_of_ne (s : St ι Addr) {a b : Addr} (hne : b ≠ a) (x : Option (Node Addr)) :
    (s.setMem a x).link b = s.link b := congrArg (Option.map Node.next) (setMem_of_ne s hne x)

/-! ## What a step can do -/

inductive Effect (s : St ι Addr) : Act ι Addr → St ι Addr → Prop
  | new {i : ι} {v : ℤ} {a : Addr} (hidle : s.pc i = .idle) (hfree : s.mem a = none) :
      Effect s (.new i v a) { (s.setMem a (some ⟨v, none⟩)).setPc i (.made a) with pushed := v ::ₘ s.pushed }
  | setNext {act : Act ι Addr} {i : ι} {a : Addr} {node : Node Addr} (hpc : (s.pc i).unlinked = some a)
      (hmem : s.mem a = some node) : Effect s act ((s.setMem a (some ⟨node.value, s.head⟩)).setPc i (.linking a))
  | linked {act : Act ι Addr} {i : ι} {a : Addr} {node : Node Addr} (hpc : s.pc i = .linking a)
      (hmem : s.mem a = some node) (hhead : s.head = node.next) : Effect s act ((s.setHead (some a)).setPc i .idle)
  | loadPop {act : Act ι Addr} {i : ι} (hpc : (s.pc i).unlinked = none ∧ (s.pc i).taken = none) :
      Effect s act (s.setPc i (.loaded s.head))
  | returnEmpty {act : Act ι Addr} {i : ι} (hpc : s.pc i = .loaded none) : Effect s act (s.setPc i .idle)
  | readNext {act : Act ι Addr} {i : ι} {a : Addr} {node : Node Addr} (hpc : s.pc i = .loaded (some a))
      (hmem : s.mem a = some node) : Effect s act (s.setPc i (.expecting a node.next))
  | won {act : Act ι Addr} {i : ι} {a : Addr} {next : Option Addr} (hpc : s.pc i = .expecting a next)
      (hhead : s.head = some a) : Effect s act ((s.setHead next).setPc i (.won a))
  | readValue {act : Act ι Addr} {i : ι} {a : Addr} {node : Node Addr} (hpc : s.pc i = .won a)
      (hmem : s.mem a = some node) : Effect s act (s.setPc i (.valued a node.value))
  | delete {i : ι} {a : Addr} {v : ℤ} {node : Node Addr} (hpc : s.pc i = .valued a v) (hmem : s.mem a = some node) :
      Effect s (.delete i) { (s.setMem a none).setPc i .idle with returned := v ::ₘ s.returned }
  | fault {act : Act ι Addr} {i : ι} {a : Addr} (hmem : s.mem a = none)
      (huse : (s.pc i).node = some a ∨ (s.pc i).seen = some a) : Effect s act s.faulty

variable {s s' : St ι Addr} {act : Act ι Addr} {i : ι} {a : Addr}

theorem withNode_effect {f : Node Addr → St ι Addr} (huse : (s.pc i).node = some a ∨ (s.pc i).seen = some a)
    (hf : ∀ node, s.mem a = some node → Effect s act (f node)) : Effect s act (s.withNode a f) := by
  unfold St.withNode
  cases hmem : s.mem a with
  | none => exact .fault hmem huse
  | some node => exact hf node hmem

theorem step_effect (hstep : step s act = some s') : Effect s act s' := by
  unfold step at hstep
  split_ifs at hstep
  cases act with
  | new i v a =>
    dsimp only at hstep
    split at hstep
    · rename_i hidle hfree
      obtain rfl := Option.some.inj hstep
      exact .new hidle hfree
    · cases hstep
  | loadPush i =>
    dsimp only at hstep
    split at hstep
    · rename_i a hpc
      obtain rfl := Option.some.inj hstep
      refine withNode_effect (i := i) (Or.inl (by rw [hpc]; rfl)) fun node hmem => ?_
      exact .setNext (by rw [hpc]; rfl) hmem
    · cases hstep
  | exchangePush i weak =>
    dsimp only at hstep
    split at hstep
    · rename_i a hpc
      obtain rfl := Option.some.inj hstep
      refine withNode_effect (i := i) (Or.inl (by rw [hpc]; rfl)) fun node hmem => ?_
      split_ifs with hsame
      · exact .linked hpc hmem hsame.1
      · exact .setNext (by rw [hpc]; rfl) hmem
    · cases hstep
  | loadPop i =>
    dsimp only at hstep
    split at hstep
    · rename_i hpc
      obtain rfl := Option.some.inj hstep
      exact .loadPop (by rw [hpc]; exact ⟨rfl, rfl⟩)
    · cases hstep
  | returnEmpty i =>
    dsimp only at hstep
    split at hstep
    · rename_i hpc
      obtain rfl := Option.some.inj hstep
      exact .returnEmpty hpc
    · cases hstep
  | readNext i =>
    dsimp only at hstep
    split at hstep
    · rename_i a hpc
      obtain rfl := Option.some.inj hstep
      exact withNode_effect (i := i) (Or.inr (by rw [hpc]; rfl)) fun node hmem => .readNext hpc hmem
    · cases hstep
  | exchangePop i weak =>
    dsimp only at hstep
    split at hstep
    · rename_i a next hpc
      obtain rfl := Option.some.inj hstep
      split_ifs with hsame
      · exact .won hpc hsame.1
      · exact .loadPop (by rw [hpc]; exact ⟨rfl, rfl⟩)
    · cases hstep
  | readValue i =>
    dsimp only at hstep
    split at hstep
    · rename_i a hpc
      obtain rfl := Option.some.inj hstep
      exact withNode_effect (i := i) (Or.inl (by rw [hpc]; rfl)) fun node hmem => .readValue hpc hmem
    · cases hstep
  | delete i =>
    dsimp only at hstep
    split at hstep
    · rename_i a v hpc
      obtain rfl := Option.some.inj hstep
      exact withNode_effect (i := i) (Or.inl (by rw [hpc]; rfl)) fun node hmem => .delete hpc hmem
    · cases hstep

/-! ## While no address in use is deleted -/

/-- the chain `l`; the nodes of the threads, apart from it and from each other; the addresses seen, still allocated and
linked once -/
structure Shape (s : St ι Addr) (l : List Addr) : Prop where
  sound : s.fault = false
  chain : HeapChain s.link s.head l
  own : ∀ i a, (s.pc i).node = some a → (s.mem a).isSome ∧ a ∉ l
  apart : ∀ i j a, (s.pc i).node = some a → (s.pc j).node = some a → i = j
  valued : ∀ i a v, s.pc i = .valued a v → valueAt s.mem a = {v}
  seen : ∀ i a, (s.pc i).seen = some a → (s.mem a).isSome ∧ ∀ j, (s.pc j).unlinked ≠ some a
  expecting : ∀ i a n, s.pc i = .expecting a n → s.link a = some n

namespace Shape

variable {l l' : List Addr}

omit [DecidableEq ι] [DecidableEq Addr] in
theorem isSome (h : Shape s l) (ha : a ∈ l) : (s.mem a).isSome := by
  have hlink := h.chain.allocated ha
  rwa [St.link, Option.isSome_map] at hlink

omit [DecidableEq ι] [DecidableEq Addr] in
theorem not_node (h : Shape s l) (ha : a ∈ l) (j : ι) : (s.pc j).node ≠ some a := fun hj => (h.own j a hj).2 ha

omit [DecidableEq Addr] in
/-- a thread moves -/
theorem setPc (h : Shape s l) {x : Pc Addr}
    (hnode : ∀ b, x.node = some b → (s.mem b).isSome ∧ b ∉ l ∧ ∀ j ≠ i, (s.pc j).node ≠ some b)
    (hunlinked : ∀ b, x.unlinked = some b → ∀ j, (s.pc j).seen ≠ some b)
    (hvalued : ∀ b v, x = .valued b v → valueAt s.mem b = {v})
    (hseen : ∀ b, x.seen = some b → (s.mem b).isSome ∧ x.unlinked ≠ some b ∧ ∀ j, (s.pc j).unlinked ≠ some b)
    (hexpecting : ∀ b n, x = .expecting b n → s.link b = some n) : Shape (s.setPc i x) l where
  sound := h.sound
  chain := h.chain
  own := by
    apply (Function.forall_update_iff s.pc fun _ pc => ∀ b, pc.node = some b → (s.mem b).isSome ∧ b ∉ l).2
    exact ⟨fun b hb => ⟨(hnode b hb).1, (hnode b hb).2.1⟩, fun j _ => h.own j⟩
  apart j k b hj hk := by
    simp only [St.setPc] at hj hk
    rcases eq_or_ne j i with rfl | hji
    · rcases eq_or_ne k j with rfl | hki
      · rfl
      · rw [Function.update_self] at hj
        rw [Function.update_of_ne hki] at hk
        exact absurd hk ((hnode b hj).2.2 k hki)
    · rw [Function.update_of_ne hji] at hj
      rcases eq_or_ne k i with rfl | hki
      · rw [Function.update_self] at hk
        exact absurd hj ((hnode b hk).2.2 j hji)
      · rw [Function.update_of_ne hki] at hk
        exact h.apart j k b hj hk
  valued := by
    apply (Function.forall_update_iff s.pc fun _ pc => ∀ b v, pc = .valued b v → valueAt s.mem b = {v}).2
    exact ⟨hvalued, fun j _ => h.valued j⟩
  seen := by
    have hall : ∀ b k, (s.pc k).seen = some b ∨ x.seen = some b → ∀ j, ((s.setPc i x).pc j).unlinked ≠ some b := by
      intro b k hk
      apply (Function.forall_update_iff s.pc fun _ pc => pc.unlinked ≠ some b).2
      rcases hk with hold | hnew
      · exact ⟨fun hx => hunlinked b hx k hold, fun j _ => (h.seen k b hold).2 j⟩
      · exact ⟨(hseen b hnew).2.1, fun j _ => (hseen b hnew).2.2 j⟩
    apply (Function.forall_update_iff s.pc fun _ pc => ∀ b, pc.seen = some b →
      (s.mem b).isSome ∧ ∀ j, ((s.setPc i x).pc j).unlinked ≠ some b).2
    exact ⟨fun b hb => ⟨(hseen b hb).1, hall b i (Or.inr hb)⟩, fun k _ b hb => ⟨(h.seen k b hb).1, hall b k (Or.inl hb)⟩⟩
  expecting := by
    apply (Function.forall_update_iff s.pc fun _ pc => ∀ b n, pc = .expecting b n → s.link b = some n).2
    exact ⟨hexpecting, fun j _ => h.expecting j⟩

omit [DecidableEq Addr] in
/-- a thread moves to where it has a node of its own -/
theorem setNode (h : Shape s l) {x : Pc Addr} (hx : x.node = some a) (hsees : x.seen = none)
    (hsome : (s.mem a).isSome) (hout : a ∉ l) (hothers : ∀ j ≠ i, (s.pc j).node ≠ some a)
    (hunlinked : x.unlinked = some a → ∀ j, (s.pc j).seen ≠ some a)
    (hvalued : ∀ b v, x = .valued b v → valueAt s.mem b = {v}) : Shape (s.setPc i x) l := by
  refine h.setPc (fun b hb => ?_) (fun b hb => ?_) hvalued (fun b hb => ?_) (fun b n hb => ?_)
  · obtain rfl : a = b := Option.some.inj (hx.symm.trans hb)
    exact ⟨hsome, hout, hothers⟩
  · have hnode : x.node = some b := by rw [Pc.node, hb]; rfl
    obtain rfl : a = b := Option.some.inj (hx.symm.trans hnode)
    exact hunlinked hb
  · cases hsees.symm.trans hb
  · rw [hb] at hsees
    cases hsees

omit [DecidableEq Addr] in
/-- a thread moves to where it has none -/
theorem setSeen (h : Shape s l) {x : Pc Addr} (hx : x.node = none)
    (hseen : ∀ b, x.seen = some b → (s.mem b).isSome ∧ ∀ j, (s.pc j).unlinked ≠ some b)
    (hexpecting : ∀ b n, x = .expecting b n → s.link b = some n) : Shape (s.setPc i x) l := by
  have hunlinked : x.unlinked = none := by
    have hneither : x.unlinked = none ∧ x.taken = none := by simpa [Pc.node] using hx
    exact hneither.1
  refine h.setPc (fun b hb => ?_) (fun b hb => ?_) (fun b v hb => ?_) (fun b hb => ?_) hexpecting
  · cases hx.symm.trans hb
  · cases hunlinked.symm.trans hb
  · rw [hb] at hx
    cases hx
  · refine ⟨(hseen b hb).1, ?_, (hseen b hb).2⟩
    rw [hunlinked]
    exact (Option.some_ne_none b).symm

omit [DecidableEq Addr] in
theorem setIdle (h : Shape s l) (i : ι) : Shape (s.setPc i .idle) l := by
  refine h.setSeen rfl (fun b hb => ?_) (fun b n hb => ?_)
  · cases hb
  · cases hb

omit [DecidableEq ι] [DecidableEq Addr] in
theorem setHead (h : Shape s l) {hd : Option Addr} (hchain : HeapChain s.link hd l')
    (hown : ∀ i a, (s.pc i).node = some a → a ∉ l') : Shape (s.setHead hd) l' :=
  ⟨h.sound, hchain, fun i a hi => ⟨(h.own i a hi).1, hown i a hi⟩, h.apart, h.valued, h.seen, h.expecting⟩

omit [DecidableEq ι] in
/-- a node that nobody uses may be made or deleted -/
theorem setMem (h : Shape s l) (hchain : a ∉ l) (hnode : ∀ j, (s.pc j).node ≠ some a)
    (hseen : ∀ j, (s.pc j).seen ≠ some a) (x : Option (Node Addr)) : Shape (s.setMem a x) l := by
  refine ⟨h.sound, h.chain.congr fun b hb => link_setMem_of_ne s ?_ x, fun j b hj => ?_, h.apart, fun j b v hj => ?_,
    fun j b hj => ?_, fun j b n hj => ?_⟩
  · exact fun heq => hchain (heq ▸ hb)
  · have hne : b ≠ a := fun heq => hnode j (heq ▸ hj)
    rw [setMem_of_ne s hne]
    exact h.own j b hj
  · have hne : b ≠ a := by
      intro heq
      apply hnode j
      rw [show (s.pc j) = .valued b v from hj, heq]
      rfl
    rw [valueAt, setMem_of_ne s hne]
    exact h.valued j b v hj
  · have hne : b ≠ a := fun heq => hseen j (heq ▸ hj)
    rw [setMem_of_ne s hne]
    exact h.seen j b hj
  · have hne : b ≠ a := by
      intro heq
      apply hseen j
      rw [show (s.pc j) = .expecting b n from hj, heq]
      rfl
    rw [link_setMem_of_ne s hne]
    exact h.expecting j b n hj

omit [DecidableEq ι] [DecidableEq Addr] in
/-- the address of a node that is not linked is not seen -/
theorem not_seen (h : Shape s l) (hpc : (s.pc i).unlinked = some a) (j : ι) : (s.pc j).seen ≠ some a := fun hj =>
  (h.seen j a hj).2 i hpc

omit [DecidableEq ι] in
theorem valueAt_setNext (s : St ι Addr) {node : Node Addr} (hmem : s.mem a = some node) (next : Option Addr) (b : Addr) :
    valueAt (s.setMem a (some ⟨node.value, next⟩)).mem b = valueAt s.mem b := by
  unfold valueAt
  rcases eq_or_ne b a with rfl | hne
  · rw [hmem, setMem_self]
    rfl
  · rw [setMem_of_ne s hne]

/-- the link of a node that is not linked yet may be written -/
theorem setNext (h : Shape s l) (hpc : (s.pc i).unlinked = some a) {node : Node Addr} (hmem : s.mem a = some node)
    (next : Option Addr) : Shape ((s.setMem a (some ⟨node.value, next⟩)).setPc i (.linking a)) l := by
  have hnode : (s.pc i).node = some a := by rw [Pc.node, hpc]; rfl
  have hsome : ∀ b, ((s.setMem a (some ⟨node.value, next⟩)).mem b).isSome = (s.mem b).isSome := by
    intro b
    rcases eq_or_ne b a with rfl | hne
    · rw [hmem, setMem_self]
      rfl
    · rw [setMem_of_ne s hne]
  have hwritten : Shape (s.setMem a (some ⟨node.value, next⟩)) l := by
    refine ⟨h.sound, h.chain.congr fun b hb => link_setMem_of_ne s ?_ _, fun j b hj => ?_, h.apart, fun j b v hj => ?_,
      fun j b hj => ?_, fun j b n hj => ?_⟩
    · exact fun heq => h.not_node hb i (heq ▸ hnode)
    · rw [hsome b]
      exact h.own j b hj
    · rw [valueAt_setNext s hmem]
      exact h.valued j b v hj
    · rw [hsome b]
      exact h.seen j b hj
    · have hne : b ≠ a := by
        intro heq
        apply h.not_seen hpc j
        rw [show s.pc j = .expecting b n from hj, heq]
        rfl
      rw [link_setMem_of_ne s hne]
      exact h.expecting j b n hj
  obtain ⟨hthere, hout⟩ := h.own i a hnode
  refine hwritten.setNode rfl rfl ((hsome a).trans hthere) hout (fun j hji hj => hji (h.apart j i a hj hnode))
    (fun _ => h.not_seen hpc) (fun b v hb => ?_)
  cases hb

end Shape

/-! ## Values -/

variable [Fintype ι] {l : List Addr}

/-- the value of the node that is a thread's own -/
def carried (mem : Addr → Option (Node Addr)) (pc : Pc Addr) : Multiset ℤ := pc.node.elim 0 (valueAt mem)

/-- where all the values are -/
def total (s : St ι Addr) (l : List Addr) : Multiset ℤ :=
  ∑ i, carried s.mem (s.pc i) + chainValues s.mem l + s.returned

/-- the shape, and every value accounted for -/
def Inv (s : St ι Addr) (l : List Addr) : Prop := Shape s l ∧ s.pushed = total s l

omit [DecidableEq Addr] in
/-- the total when a thread moves -/
theorem total_setPc (s : St ι Addr) (l : List Addr) (i : ι) (x : Pc Addr) :
    total (s.setPc i x) l + carried s.mem (s.pc i) = total s l + carried s.mem x := by
  have hsum : ∑ j, carried s.mem ((s.setPc i x).pc j) + carried s.mem (s.pc i) =
      ∑ j, carried s.mem (s.pc j) + carried s.mem x := sum_update (carried s.mem) s.pc i x
  calc total (s.setPc i x) l + carried s.mem (s.pc i)
      = ∑ j, carried s.mem ((s.setPc i x).pc j) + carried s.mem (s.pc i) + chainValues s.mem l + s.returned := by
        unfold total
        show ∑ j, carried s.mem ((s.setPc i x).pc j) + chainValues s.mem l + s.returned + _ = _
        abel
    _ = ∑ j, carried s.mem (s.pc j) + carried s.mem x + chainValues s.mem l + s.returned := by rw [hsum]
    _ = total s l + carried s.mem x := by
        unfold total
        abel

omit [DecidableEq ι] [DecidableEq Addr] in
theorem total_cons (s : St ι Addr) (a : Addr) (l : List Addr) : total s (a :: l) = total s l + valueAt s.mem a := by
  rw [total, total, chainValues, chainValues, List.map_cons, List.sum_cons]
  abel

omit [DecidableEq Addr] in
theorem Inv.setPc (h : Inv s l) {x : Pc Addr} (hshape : Shape (s.setPc i x) l)
    (hx : carried s.mem x = carried s.mem (s.pc i)) : Inv (s.setPc i x) l :=
  ⟨hshape, h.2.trans (add_right_cancel ((total_setPc s l i x).trans (by rw [hx]))).symm⟩

omit [DecidableEq ι] [DecidableEq Addr] in
/-- the total depends on the values of the nodes in use -/
theorem total_congr {mem : Addr → Option (Node Addr)}
    (hnodes : ∀ j b, (s.pc j).node = some b → valueAt mem b = valueAt s.mem b)
    (hchain : ∀ b ∈ l, valueAt mem b = valueAt s.mem b) : total { s with mem := mem } l = total s l := by
  have hsum : ∑ j, carried mem (s.pc j) = ∑ j, carried s.mem (s.pc j) := by
    refine Finset.sum_congr rfl fun j _ => ?_
    unfold carried
    cases hnode : (s.pc j).node with
    | none => rfl
    | some b => exact hnodes j b hnode
  have hvalues : chainValues mem l = chainValues s.mem l := by rw [chainValues, chainValues, List.map_congr_left hchain]
  rw [total, total, hsum, hvalues]

omit [DecidableEq ι] in
theorem total_setMem (hchain : a ∉ l) (hnode : ∀ j, (s.pc j).node ≠ some a) (x : Option (Node Addr)) :
    total (s.setMem a x) l = total s l := by
  have hvalue : ∀ b, b ≠ a → valueAt (s.setMem a x).mem b = valueAt s.mem b := by
    intro b hb
    rw [valueAt, setMem_of_ne s hb]
    rfl
  refine total_congr (fun j b hj => hvalue b ?_) fun b hb => hvalue b ?_
  · exact fun heq => hnode j (heq ▸ hj)
  · exact fun heq => hchain (heq ▸ hb)

omit [DecidableEq ι] [DecidableEq Addr] in
theorem total_return (s : St ι Addr) (v : ℤ) :
    total { s with returned := v ::ₘ s.returned } l = total s l + {v} := by
  rw [total, total, ← Multiset.singleton_add]
  show _ + _ + ({v} + s.returned) = _
  abel

theorem new_inv (h : Inv s l) {v : ℤ} (hidle : s.pc i = .idle) (hfree : s.mem a = none) :
    Inv { (s.setMem a (some ⟨v, none⟩)).setPc i (.made a) with pushed := v ::ₘ s.pushed } l := by
  obtain ⟨hshape, htotal⟩ := h
  -- whatever is in use is allocated
  have hused : ¬(s.mem a).isSome := by
    rw [hfree]
    exact Bool.false_ne_true
  have hchain : a ∉ l := fun ha => hused (hshape.isSome ha)
  have hnode : ∀ j, (s.pc j).node ≠ some a := fun j hj => hused (hshape.own j a hj).1
  have hseen : ∀ j, (s.pc j).seen ≠ some a := fun j hj => hused (hshape.seen j a hj).1
  have hmade : Shape (s.setMem a (some ⟨v, none⟩)) l := hshape.setMem hchain hnode hseen _
  have hmoved : Shape ((s.setMem a (some ⟨v, none⟩)).setPc i (.made a)) l := by
    refine hmade.setNode rfl rfl ?_ hchain (fun j _ => hnode j) (fun _ => hseen) (fun b w hb => ?_)
    · rw [setMem_self]
      rfl
    · cases hb
  refine ⟨⟨hmoved.sound, hmoved.chain, hmoved.own, hmoved.apart, hmoved.valued, hmoved.seen, hmoved.expecting⟩, ?_⟩
  have hmem := total_setMem hchain hnode (some ⟨v, none⟩)
  have hmove := total_setPc (s.setMem a (some ⟨v, none⟩)) l i (.made a)
  have hbefore : carried (s.setMem a (some ⟨v, none⟩)).mem ((s.setMem a (some ⟨v, none⟩)).pc i) = 0 := by
    show carried _ (s.pc i) = 0
    rw [hidle]
    rfl
  have hafter : carried (s.setMem a (some ⟨v, none⟩)).mem (.made a) = {v} := by
    show valueAt _ a = {v}
    rw [valueAt, setMem_self]
    rfl
  rw [hbefore, hafter, add_zero] at hmove
  calc v ::ₘ s.pushed = total s l + {v} := by rw [htotal, ← Multiset.singleton_add, add_comm]
    _ = total (s.setMem a (some ⟨v, none⟩)) l + {v} := by rw [hmem]
    _ = _ := hmove.symm

theorem setNext_inv (h : Inv s l) (hpc : (s.pc i).unlinked = some a) {node : Node Addr} (hmem : s.mem a = some node)
    (next : Option Addr) : Inv ((s.setMem a (some ⟨node.value, next⟩)).setPc i (.linking a)) l := by
  obtain ⟨hshape, htotal⟩ := h
  refine ⟨hshape.setNext hpc hmem next, ?_⟩
  have hvalue := Shape.valueAt_setNext s hmem next
  have hnode : (s.pc i).node = some a := by rw [Pc.node, hpc]; rfl
  have hkeeps : carried (s.setMem a (some ⟨node.value, next⟩)).mem (.linking a) =
      carried (s.setMem a (some ⟨node.value, next⟩)).mem (s.pc i) := by
    rw [carried, carried, hnode]
    rfl
  have hmove := total_setPc (s.setMem a (some ⟨node.value, next⟩)) l i (.linking a)
  rw [hkeeps] at hmove
  calc s.pushed = total s l := htotal
    _ = total (s.setMem a (some ⟨node.value, next⟩)) l :=
        (total_congr (fun _ b _ => hvalue b) fun b _ => hvalue b).symm
    _ = _ := (add_right_cancel hmove).symm

omit [DecidableEq Addr] in
theorem linked_inv (h : Inv s l) (hpc : s.pc i = .linking a) {node : Node Addr} (hmem : s.mem a = some node)
    (hhead : s.head = node.next) : Inv ((s.setHead (some a)).setPc i .idle) (a :: l) := by
  obtain ⟨hshape, htotal⟩ := h
  have hnode : (s.pc i).node = some a := by rw [hpc]; rfl
  have hchain : HeapChain s.link (some a) (a :: l) := by
    refine ⟨rfl, s.head, ?_, hshape.chain⟩
    rw [St.link, hmem, hhead]
    rfl
  have hidle : Shape (s.setPc i .idle) l := hshape.setIdle i
  refine ⟨hidle.setHead hchain fun j b hj => ?_, ?_⟩
  · rw [List.mem_cons]
    refine not_or.2 ⟨fun heq => ?_, (hidle.own j b hj).2⟩
    -- the node was this thread's, and the thread has none now
    rcases eq_or_ne j i with rfl | hne
    · simp only [St.setPc, Function.update_self] at hj
      cases hj
    · simp only [St.setPc, Function.update_of_ne hne] at hj
      exact hne (hshape.apart j i b hj (heq ▸ hnode))
  · have hmove := total_setPc s l i .idle
    rw [show carried s.mem (s.pc i) = valueAt s.mem a by rw [carried, hnode]; rfl,
      show carried s.mem .idle = 0 from rfl, add_zero] at hmove
    calc s.pushed = total s l := htotal
      _ = total (s.setPc i .idle) l + valueAt s.mem a := hmove.symm
      _ = total (s.setPc i .idle) (a :: l) := (total_cons (s.setPc i .idle) a l).symm

omit [DecidableEq Addr] in
/-- the head of the chain is the thread's, after the exchange -/
theorem won_inv (h : Inv s l) {next : Option Addr} (hpc : s.pc i = .expecting a next) (hhead : s.head = some a) :
    ∃ l', Inv ((s.setHead next).setPc i (.won a)) l' := by
  obtain ⟨hshape, htotal⟩ := h
  have hchain := hshape.chain
  rw [hhead] at hchain
  obtain ⟨n, l', rfl, hlink, hrest⟩ := hchain.of_some
  -- what the thread has read is still the link
  obtain rfl : next = n := Option.some.inj ((hshape.expecting i a next hpc).symm.trans hlink)
  have hout : a ∉ l' := (List.nodup_cons.1 hchain.nodup).1
  have hcut : Shape (s.setHead next) l' := hshape.setHead hrest fun j b hj hb =>
    (hshape.own j b hj).2 (List.mem_cons_of_mem a hb)
  refine ⟨l', hcut.setNode rfl rfl (hshape.isSome List.mem_cons_self) hout
    (fun j _ => hshape.not_node List.mem_cons_self j) (fun hb => ?_) (fun b v hb => ?_), ?_⟩
  · cases hb
  · cases hb
  · have hmove := total_setPc s l' i (.won a)
    rw [show carried s.mem (s.pc i) = 0 by rw [hpc]; rfl, show carried s.mem (.won a) = valueAt s.mem a from rfl,
      add_zero] at hmove
    calc s.pushed = total s (a :: l') := htotal
      _ = total s l' + valueAt s.mem a := total_cons s a l'
      _ = total (s.setPc i (.won a)) l' := hmove.symm

theorem delete_inv (h : Inv s l) {v : ℤ} (hpc : s.pc i = .valued a v) (hclear : ∀ j ≠ i, (s.pc j).seen ≠ some a) :
    Inv { (s.setMem a none).setPc i .idle with returned := v ::ₘ s.returned } l := by
  obtain ⟨hshape, htotal⟩ := h
  have hnode : (s.pc i).node = some a := by rw [hpc]; rfl
  have hchain : a ∉ l := (hshape.own i a hnode).2
  have hidle : Shape (s.setPc i .idle) l := hshape.setIdle i
  have hfree : ∀ j, ((s.setPc i .idle).pc j).node ≠ some a := by
    apply (Function.forall_update_iff s.pc fun _ pc => pc.node ≠ some a).2
    refine ⟨fun hno => ?_, fun j hne hj => hne (hshape.apart j i a hj hnode)⟩
    cases hno
  have hseen : ∀ j, ((s.setPc i .idle).pc j).seen ≠ some a := by
    apply (Function.forall_update_iff s.pc fun _ pc => pc.seen ≠ some a).2
    refine ⟨fun hno => ?_, hclear⟩
    cases hno
  have hdeleted : Shape ((s.setPc i .idle).setMem a none) l := hidle.setMem hchain hfree hseen none
  refine ⟨⟨hdeleted.sound, hdeleted.chain, hdeleted.own, hdeleted.apart, hdeleted.valued, hdeleted.seen,
    hdeleted.expecting⟩, ?_⟩
  have hmem := total_setMem (s := s.setPc i .idle) hchain hfree none
  have hmove := total_setPc s l i .idle
  rw [show carried s.mem (s.pc i) = {v} by rw [carried, hnode]; exact hshape.valued i a v hpc,
    show carried s.mem .idle = 0 from rfl, add_zero] at hmove
  calc s.pushed = total s l := htotal
    _ = total (s.setPc i .idle) l + {v} := hmove.symm
    _ = total ((s.setPc i .idle).setMem a none) l + {v} := by rw [hmem]
    _ = _ := (total_return ((s.setPc i .idle).setMem a none) v).symm

omit [DecidableEq Addr] in
theorem loadPop_inv (h : Inv s l) (hpc : (s.pc i).unlinked = none ∧ (s.pc i).taken = none) :
    Inv (s.setPc i (.loaded s.head)) l := by
  refine h.setPc (h.1.setSeen rfl (fun b hb => ?_) (fun b n hb => ?_)) ?_
  · have hchain := h.1.chain
    rw [show s.head = some b from hb] at hchain
    obtain ⟨n, l', rfl, -, -⟩ := hchain.of_some
    refine ⟨h.1.isSome List.mem_cons_self, fun j hj => ?_⟩
    apply h.1.not_node List.mem_cons_self j
    rw [Pc.node, hj]
    rfl
  · cases hb
  · rw [carried, carried, Pc.node, Pc.node, hpc.1, hpc.2]
    rfl

omit [DecidableEq Addr] in
theorem readNext_inv (h : Inv s l) {node : Node Addr} (hpc : s.pc i = .loaded (some a)) (hmem : s.mem a = some node) :
    Inv (s.setPc i (.expecting a node.next)) l := by
  refine h.setPc (h.1.setSeen rfl (fun b hb => ?_) (fun b n hb => ?_)) (by rw [hpc]; rfl)
  · obtain rfl : a = b := Option.some.inj hb
    exact h.1.seen i a (by rw [hpc]; rfl)
  · obtain ⟨rfl, rfl⟩ := Pc.expecting.inj hb
    rw [St.link, hmem]
    rfl

omit [DecidableEq Addr] in
theorem readValue_inv (h : Inv s l) {node : Node Addr} (hpc : s.pc i = .won a) (hmem : s.mem a = some node) :
    Inv (s.setPc i (.valued a node.value)) l := by
  have hnode : (s.pc i).node = some a := by rw [hpc]; rfl
  obtain ⟨hthere, hout⟩ := h.1.own i a hnode
  refine h.setPc (h.1.setNode rfl rfl hthere hout (fun j hne hj => hne (h.1.apart j i a hj hnode)) (fun hb => ?_)
    (fun b v hb => ?_)) (by rw [hpc]; rfl)
  · cases hb
  · obtain ⟨rfl, rfl⟩ := Pc.valued.inj hb
    rw [valueAt, hmem]
    rfl

theorem step_inv (s : St ι Addr) (act : Act ι Addr) (s' : St ι Addr) (hstep : step s act = some s')
    (hclear : Clear s act) (h : ∃ l, Inv s l) : ∃ l, Inv s' l := by
  obtain ⟨l, h⟩ := h
  cases step_effect hstep with
  | new hidle hfree => exact ⟨l, new_inv h hidle hfree⟩
  | setNext hpc hmem => exact ⟨l, setNext_inv h hpc hmem s.head⟩
  | linked hpc hmem hhead => exact ⟨_, linked_inv h hpc hmem hhead⟩
  | loadPop hpc => exact ⟨l, loadPop_inv h hpc⟩
  | @returnEmpty _ i hpc => exact ⟨l, h.setPc (h.1.setIdle i) (by rw [hpc]; rfl)⟩
  | readNext hpc hmem => exact ⟨l, readNext_inv h hpc hmem⟩
  | won hpc hhead => exact won_inv h hpc hhead
  | readValue hpc hmem => exact ⟨l, readValue_inv h hpc hmem⟩
  | delete hpc hmem => exact ⟨l, delete_inv h hpc (hclear _ _ hpc)⟩
  | @fault _ i a hmem huse =>
    -- what is in use is allocated
    have hsome : (s.mem a).isSome := by
      rcases huse with hnode | hseen
      · exact (h.1.own i a hnode).1
      · exact (h.1.seen i a hseen).1
    rw [hmem] at hsome
    cases hsome

omit [DecidableEq ι] [DecidableEq Addr] in
theorem init_inv : Inv (.init : St ι Addr) [] := by
  refine ⟨⟨rfl, rfl, fun i a hi => ?_, fun i j a hi => ?_, fun i a v hi => ?_, fun i a hi => ?_, fun i a n hi => ?_⟩, ?_⟩
  · cases hi
  · cases hi
  · cases hi
  · cases hi
  · cases hi
  · simp [total, St.init, carried, Pc.node, Pc.unlinked, Pc.taken, chainValues]

omit [DecidableEq ι] [DecidableEq Addr] in
/-- what the threads carry, pushes and pops apart -/
theorem sum_carried_eq (s : St ι Addr) : ∑ i, carried s.mem (s.pc i) = unlinkedValues s + takenValues s := by
  rw [unlinkedValues, takenValues, ← Finset.sum_add_distrib]
  refine Finset.sum_congr rfl fun i _ => ?_
  cases hpc : s.pc i <;> simp [carried, Pc.node, Pc.unlinked, Pc.taken]

/-- **Values.** In every state of a run in which no node is deleted while another `pop` holds its address: no deleted node
has been read; from `head` there is a finite chain of allocated nodes, without repetition; and the values pushed are, with
multiplicity, those of the nodes not linked yet, of the chain, of the nodes that a `pop` has unlinked and is about to
return, and those returned. -/
theorem values_accounted (acts : List (Act ι Addr)) (s : St ι Addr) (hrun : Machine.exec step .init acts = some s)
    (hclear : Machine.Meets step Clear .init acts) :
    s.fault = false ∧ ∃ l, HeapChain s.link s.head l ∧ l.Nodup ∧ (∀ a ∈ l, (s.mem a).isSome) ∧
      s.pushed = unlinkedValues s + chainValues s.mem l + takenValues s + s.returned := by
  obtain ⟨l, hshape, htotal⟩ := Machine.exec_inv_of_meets (P := fun s => ∃ l, Inv s l) step_inv hrun hclear ⟨[], init_inv⟩
  refine ⟨hshape.sound, l, hshape.chain, hshape.chain.nodup, fun a ha => hshape.isSome ha, ?_⟩
  rw [htotal, total, sum_carried_eq]
  abel

/-- both threads push; then thread 1 has loaded the upper node and its exchange fails, since thread 0 has popped it in between -/
def crossed : List (Act Bool ℕ) :=
  [.new false 7 1, .loadPush false, .new true 8 2, .exchangePush false false, .loadPush true, .exchangePush true false,
    .loadPop false, .loadPop true, .readNext false, .readNext true, .exchangePop false false, .readValue false,
    .exchangePop true false, .delete false, .readNext true, .exchangePop true false, .readValue true, .delete true]

/-- the condition of a step, tested for all threads -/
instance decidableClear (s : St ι Addr) : ∀ act, Decidable (Clear s act)
  | .delete i =>
    match hi : s.pc i with
    | .valued a v =>
      decidable_of_iff (∀ j, j ≠ i → (s.pc j).seen ≠ some a)
        ⟨fun hall a' v' heq => (Pc.valued.inj (hi.symm.trans heq)).1 ▸ hall, fun hclear => hclear a v hi⟩
    | .idle | .made _ | .linking _ | .loaded _ | .expecting _ _ | .won _ =>
      .isTrue fun a v heq => absurd (hi.symm.trans heq) (by simp)
  | .new .. | .loadPush _ | .exchangePush .. | .loadPop _ | .returnEmpty _ | .readNext _ | .exchangePop .. | .readValue _ =>
    .isTrue trivial

/-- thread 0 deletes its node when thread 1 has loaded `head` again -/
theorem crossed_clear : Machine.Meets step Clear .init crossed := by decide +kernel

theorem values_accounted_crossed : ∃ s, Machine.exec step .init crossed = some s ∧ s.returned = {7, 8} ∧ s.fault = false :=
  ⟨_, rfl, rfl, (values_accounted crossed _ rfl crossed_clear).1⟩

/-- **A read of a deleted node.** Thread 1 loads `head`; thread 0 pops the node and deletes it; thread 1 reads its link. -/
theorem read_after_delete : ∃ s : St (Fin 2) ℕ, Machine.exec step .init
      [.new 0 7 1, .loadPush 0, .exchangePush 0 false, .loadPop 1, .loadPop 0, .readNext 0, .exchangePop 0 false,
        .readValue 0, .delete 0, .readNext 1] = some s ∧ s.fault = true :=
  ⟨_, rfl, rfl⟩

/-- **A deleted head.** Node 2 lies over node 1. Thread 1 has read both addresses; thread 0 pops both nodes and pushes a
new node, which is made at address 2 again; the exchange of thread 1 succeeds and makes the deleted node 1 the head. No
deleted node has been read. -/
theorem dangling_head : ∃ s : St (Fin 2) ℕ, Machine.exec step .init
      [.new 0 7 1, .loadPush 0, .exchangePush 0 false, .new 0 8 2, .loadPush 0, .exchangePush 0 false,
        .loadPop 1, .readNext 1,
        .loadPop 0, .readNext 0, .exchangePop 0 false, .readValue 0, .delete 0,
        .loadPop 0, .readNext 0, .exchangePop 0 false, .readValue 0, .delete 0,
        .new 0 9 2, .loadPush 0, .exchangePush 0 false,
        .exchangePop 1 false] = some s ∧ s.head = some 1 ∧ s.mem 1 = none ∧ s.fault = false :=
  ⟨_, rfl, rfl, rfl, rfl⟩

end InterviewPrep.ThreadPool.LockFreeStack
