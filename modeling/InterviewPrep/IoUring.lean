/-
Reading several files at once with `cat_io_uring_multi` of pollMechanisms/io_uring/cat_io_uring.c, and one after the other
with `cat_traditional_multi`.

The loop of `cat_io_uring_multi` queues one read for every open file, moves the file's `offset` on by a whole block, and
collects what has completed. It does not wait: when `io_uring_peek_cqe` has nothing, it queues the next reads, into the same
buffers. The kernel is a step of its own, `complete`, at any time and for any read in flight; it delivers `res` bytes from
the offset of the read into the buffer of the file.

- `read_to_end`: if no read of a file is queued while another one of it is in flight or not collected, and no read is
  short, what has been written of a file is always an initial part of it, and when the loop ends it is the whole file;
- `ended_early`: a second read of a file, behind its end, completes first. The loop ends with nothing written;
- `short_read_lost`: the bytes that a short read leaves out are never asked for again;
- `traditional_reads_all`: the loop of `cat_traditional_multi` writes every file whole, however short its reads and writes.

Errors of `open` and negative results are left out.
-/
import InterviewPrep.Core.Machine
import InterviewPrep.Core.Threads

namespace InterviewPrep.IoUring

/-! ## Reads -/

/-- `BLOCK_SIZE` -/
abbrev blockSize : ℕ := 65536

/-- `QUEUE_DEPTH` -/
abbrev queueDepth : ℕ := 128

/-- `res` is a possible result of reading a block at `off`: short or not, and 0 only at the end of the file -/
def Result (c : List UInt8) (off res : ℕ) : Prop :=
  res ≤ min blockSize (c.length - off) ∧ (res = 0 → c.length ≤ off)

instance (c : List UInt8) (off res : ℕ) : Decidable (Result c off res) := inferInstanceAs (Decidable (_ ∧ _))

/-- the bytes that it delivers -/
def bytesAt (c : List UInt8) (off res : ℕ) : List UInt8 := (c.drop off).take res

theorem take_append_bytesAt (c : List UInt8) (off res : ℕ) : c.take off ++ bytesAt c off res = c.take (off + res) :=
  List.take_add.symm

theorem length_bytesAt {c : List UInt8} {off res : ℕ} (h : res ≤ c.length - off) : (bytesAt c off res).length = res := by
  rw [bytesAt, List.length_take, List.length_drop]
  exact min_eq_left h

/-- a read that is not short gets a whole block, or what is left -/
theorem take_full (c : List UInt8) (off : ℕ) :
    c.take (off + min blockSize (c.length - off)) = c.take (off + blockSize) := by
  rcases le_total blockSize (c.length - off) with hblock | hrest
  · rw [min_eq_left hblock]
  · rw [min_eq_right hrest, List.take_of_length_le (by omega), List.take_of_length_le (by omega)]

/-! ## The loop of `cat_traditional_multi`, for one file -/

namespace Traditional

structure St where
  /-- of the file descriptor -/
  pos : ℕ
  /-- bytes of `buf` from `off` to `n` -/
  rest : List UInt8
  written : List UInt8
  ended : Bool

inductive Act where
  | read (n : ℕ)
  | write (w : ℕ)

/-- the next `read` comes when everything has been written, and the loop ends when it answers 0 -/
def step (c : List UInt8) (s : St) : Act → Option St
  | .read n =>
    if s.rest = [] ∧ s.ended = false ∧ Result c s.pos n then
      some { s with pos := s.pos + n, rest := bytesAt c s.pos n, ended := n = 0 }
    else none
  | .write w =>
    if s.rest ≠ [] ∧ w ≤ s.rest.length then
      some { s with rest := s.rest.drop w, written := s.written ++ s.rest.take w }
    else none

def St.init : St := ⟨0, [], [], false⟩

structure Inv (c : List UInt8) (s : St) : Prop where
  split : s.written ++ s.rest = c.take s.pos
  ended : s.ended = true → s.rest = [] ∧ c.length ≤ s.pos

theorem step_inv (c : List UInt8) (s : St) (a : Act) (s' : St) (hstep : step c s a = some s') (h : Inv c s) :
    Inv c s' := by
  cases a with
  | read n =>
    rw [step] at hstep
    split_ifs at hstep with hread
    obtain ⟨hrest, -, hres⟩ := hread
    obtain rfl := Option.some.inj hstep
    have hsplit := h.split
    rw [hrest, List.append_nil] at hsplit
    refine ⟨?_, fun hended => ?_⟩
    · show s.written ++ bytesAt c s.pos n = c.take (s.pos + n)
      rw [hsplit, take_append_bytesAt]
    · obtain rfl : n = 0 := of_decide_eq_true hended
      exact ⟨show bytesAt c s.pos 0 = [] from List.take_zero, hres.2 rfl⟩
  | write w =>
    rw [step] at hstep
    split_ifs at hstep with hwrite
    obtain rfl := Option.some.inj hstep
    refine ⟨?_, fun hended => absurd (h.ended hended).1 hwrite.1⟩
    show s.written ++ s.rest.take w ++ s.rest.drop w = c.take s.pos
    rw [List.append_assoc, List.take_append_drop, h.split]

/-- **The traditional loop.** For every pattern of short reads and writes, what has been written is an initial part of the
file, and when the loop ends it is the whole file. -/
theorem traditional_reads_all (c : List UInt8) (acts : List Act) (s : St)
    (hrun : Machine.exec (step c) St.init acts = some s) : s.written <+: c ∧ (s.ended = true → s.written = c) := by
  have h : Inv c s := Machine.exec_inv (step_inv c) hrun ⟨rfl, fun hended => absurd hended Bool.false_ne_true⟩
  refine ⟨?_, fun hended => ?_⟩
  · calc s.written <+: s.written ++ s.rest := List.prefix_append _ _
      _ = c.take s.pos := h.split
      _ <+: c := List.take_prefix _ _
  · obtain ⟨hrest, hend⟩ := h.ended hended
    have hsplit := h.split
    rwa [hrest, List.append_nil, List.take_of_length_le hend] at hsplit

end Traditional

/-! ## The loop of `cat_io_uring_multi` -/

/-- `isOpen` is `fd >= 0`; `buf` is what has been delivered into the buffer -/
structure IoTask where
  isOpen : Bool
  buf : List UInt8
  offset : ℕ

inductive Phase where
  | submit
  | collect (completions : ℕ)
  | done
deriving DecidableEq

/-- files are numbered as in `files`, and `user_data` is the number -/
structure St (n : ℕ) where
  tasks : Fin n → IoTask
  /-- reads in flight, with their offsets -/
  flying : List (Fin n × ℕ)
  /-- completions not seen yet, with `res` -/
  cq : List (Fin n × ℕ)
  active : ℤ
  phase : Phase
  /-- what has been written, in this order -/
  writes : List (Fin n × List UInt8)

inductive Act (n : ℕ) where
  | submit
  | complete (r : Fin n × ℕ) (res : ℕ)
  | collect
  | leave

variable {n : ℕ}

namespace St

/-- the test of the outer loop -/
def next (s : St n) : St n := { s with phase := if 0 < s.active then .submit else .done }

def init (n : ℕ) : St n := next ⟨fun _ => ⟨true, [], 0⟩, [], [], n, .submit, []⟩

/-- `io_uring_prep_read` -/
def prepRead (s : St n) (i : Fin n) : St n :=
  { s with
    flying := s.flying ++ [(i, (s.tasks i).offset)]
    tasks := Function.update s.tasks i { s.tasks i with offset := (s.tasks i).offset + blockSize } }

/-- the submission loop, with `room` free entries in the submission queue -/
def prepReads : ℕ → List (Fin n) → St n → St n
  | _, [], s => s
  | room, i :: is, s =>
    if (s.tasks i).isOpen then
      match room with
      | 0 => s
      | room + 1 => prepReads room is (s.prepRead i)
    else prepReads room is s

/-- `io_uring_submit` empties the queue -/
def submit (s : St n) : St n := { prepReads queueDepth (List.finRange n) s with phase := .collect 0 }

def complete (c : Fin n → List UInt8) (s : St n) (r : Fin n × ℕ) (res : ℕ) : St n :=
  { s with
    flying := s.flying.erase r
    cq := s.cq ++ [(r.1, res)]
    tasks := Function.update s.tasks r.1
      { s.tasks r.1 with buf := bytesAt (c r.1) r.2 res ++ (s.tasks r.1).buf.drop res } }

def collectWrite (s : St n) (i : Fin n) (res : ℕ) : St n :=
  { s with writes := s.writes ++ [(i, (s.tasks i).buf.take res)] }

/-- `close` -/
def collectClose (s : St n) (i : Fin n) : St n :=
  { s with tasks := Function.update s.tasks i { s.tasks i with isOpen := false }, active := s.active - 1 }

/-- one pass of the collecting loop -/
def collect (s : St n) (completions : ℕ) (i : Fin n) (res : ℕ) (rest : List (Fin n × ℕ)) : St n :=
  { (if 0 < res then s.collectWrite i res else s.collectClose i) with cq := rest, phase := .collect (completions + 1) }

/-- the bytes written for a file, in the order of writing -/
def written (s : St n) (i : Fin n) : List UInt8 := ((s.writes.filter fun w => w.1 = i).map Prod.snd).flatten

end St

/-- the collecting loop is left after `filec` completions or when `io_uring_peek_cqe` reports nothing, which it may do at
any time -/
def step (c : Fin n → List UInt8) (s : St n) : Act n → Option (St n)
  | .submit => if s.phase = .submit then some s.submit else none
  | .complete r res =>
    if s.phase ≠ .done ∧ r ∈ s.flying ∧ Result (c r.1) r.2 res then some (s.complete c r res) else none
  | .collect =>
    match s.phase, s.cq with
    | .collect completions, (i, res) :: rest => if completions < n then some (s.collect completions i res rest) else none
    | _, _ => none
  | .leave =>
    match s.phase with
    | .collect _ => some s.next
    | _ => none

def run (c : Fin n → List UInt8) (acts : List (Act n)) : Option (St n) := Machine.exec (step c) (.init n) acts

/-! ## One read at a time -/

/-- the entries of a queue for one file -/
def ofFile (i : Fin n) (l : List (Fin n × ℕ)) : List (Fin n × ℕ) := l.filter fun r => r.1 = i

/-- no read of the file is in flight or waits to be collected -/
def St.Idle (s : St n) (i : Fin n) : Prop := ofFile i s.flying = [] ∧ ofFile i s.cq = []

instance (s : St n) (i : Fin n) : Decidable (s.Idle i) := inferInstanceAs (Decidable (_ ∧ _))

/-- the files that get an entry of the submission queue -/
def St.queued (s : St n) : List (Fin n) := ((List.finRange n).filter fun i => (s.tasks i).isOpen).take queueDepth

/-- no read is queued behind another one of its file, and no read is short -/
def Clear (c : Fin n → List UInt8) (s : St n) : Act n → Prop
  | .submit => ∀ i ∈ s.queued, s.Idle i
  | .complete r res => res = min blockSize ((c r.1).length - r.2)
  | .collect => True
  | .leave => True

instance (c : Fin n → List UInt8) (s : St n) : ∀ a, Decidable (Clear c s a)
  | .submit => inferInstanceAs (Decidable (∀ i ∈ s.queued, s.Idle i))
  | .complete r res => inferInstanceAs (Decidable (res = min blockSize ((c r.1).length - r.2)))
  | .collect => isTrue trivial
  | .leave => isTrue trivial

/-- where file `i` is, by its entries in the two queues -/
inductive Progress (c : List UInt8) (i : Fin n) (t : IoTask) (written : List UInt8) :
    List (Fin n × ℕ) → List (Fin n × ℕ) → Prop where
  | idle (hopen : t.isOpen = true) (hwritten : written = c.take t.offset) : Progress c i t written [] []
  | flying (off : ℕ) (hopen : t.isOpen = true) (hoffset : t.offset = off + blockSize) (hwritten : written = c.take off) :
    Progress c i t written [(i, off)] []
  | completed (off res : ℕ) (hopen : t.isOpen = true) (hoffset : t.offset = off + blockSize)
    (hwritten : written = c.take off) (hres : res = min blockSize (c.length - off))
    (hbuf : t.buf.take res = bytesAt c off res) : Progress c i t written [] [(i, res)]
  | closed (hclosed : t.isOpen = false) (hwritten : written = c) : Progress c i t written [] []

structure Inv (c : Fin n → List UInt8) (s : St n) : Prop where
  files : ∀ i, Progress (c i) i (s.tasks i) (s.written i) (ofFile i s.flying) (ofFile i s.cq)
  active : s.active = ∑ i, if (s.tasks i).isOpen then 1 else 0
  done : s.phase = .done → s.active ≤ 0

variable {c : Fin n → List UInt8} {s s' : St n} {i j : Fin n}

/-! ### The queues -/

theorem ofFile_concat_self (l : List (Fin n × ℕ)) (i : Fin n) (x : ℕ) :
    ofFile i (l ++ [(i, x)]) = ofFile i l ++ [(i, x)] := by
  simp [ofFile]

theorem ofFile_concat_of_ne (l : List (Fin n × ℕ)) (x : ℕ) (h : i ≠ j) : ofFile j (l ++ [(i, x)]) = ofFile j l := by
  simp [ofFile, h]

theorem ofFile_erase (l : List (Fin n × ℕ)) (r : Fin n × ℕ) : ofFile j (l.erase r) = (ofFile j l).erase r :=
  List.erase_filter.symm

theorem ofFile_erase_of_ne (l : List (Fin n × ℕ)) (x : ℕ) (h : i ≠ j) : ofFile j (l.erase (i, x)) = ofFile j l := by
  rw [ofFile_erase]
  apply List.erase_of_not_mem
  simp [ofFile, h]

theorem ofFile_cons_self (l : List (Fin n × ℕ)) (i : Fin n) (x : ℕ) : ofFile i ((i, x) :: l) = (i, x) :: ofFile i l := by
  simp [ofFile]

theorem ofFile_cons_of_ne (l : List (Fin n × ℕ)) (x : ℕ) (h : i ≠ j) : ofFile j ((i, x) :: l) = ofFile j l := by
  simp [ofFile, h]

section

variable {b w : List UInt8} {t : IoTask} {f q : List (Fin n × ℕ)} {off res : ℕ}

theorem Progress.of_flying (h : Progress b i t w f q) (hr : (i, off) ∈ f) :
    f = [(i, off)] ∧ q = [] ∧ t.isOpen = true ∧ t.offset = off + blockSize ∧ w = b.take off := by
  cases h with
  | idle => exact absurd hr List.not_mem_nil
  | flying off' hopen hoffset hwritten =>
    obtain rfl : off = off' := (Prod.mk.inj (List.mem_singleton.1 hr)).2
    exact ⟨rfl, rfl, hopen, hoffset, hwritten⟩
  | completed => exact absurd hr List.not_mem_nil
  | closed => exact absurd hr List.not_mem_nil

theorem Progress.of_completed (h : Progress b i t w f ((i, res) :: q)) :
    f = [] ∧ q = [] ∧ t.isOpen = true ∧ ∃ off, t.offset = off + blockSize ∧ w = b.take off ∧
      res = min blockSize (b.length - off) ∧ t.buf.take res = bytesAt b off res := by
  cases h with
  | completed off res hopen hoffset hwritten hres hbuf => exact ⟨rfl, rfl, hopen, off, hoffset, hwritten, hres, hbuf⟩

theorem Progress.initial_part (h : Progress b i t w f q) : w <+: b := by
  cases h with
  | idle _ hwritten => exact hwritten ▸ List.take_prefix _ _
  | flying _ _ _ hwritten => exact hwritten ▸ List.take_prefix _ _
  | completed _ _ _ _ hwritten _ _ => exact hwritten ▸ List.take_prefix _ _
  | closed _ hwritten => exact hwritten ▸ List.prefix_rfl

theorem Progress.eq_of_closed (h : Progress b i t w f q) (hclosed : t.isOpen = false) : w = b := by
  cases h with
  | idle hopen => exact absurd (hclosed.symm.trans hopen) Bool.false_ne_true
  | flying _ hopen => exact absurd (hclosed.symm.trans hopen) Bool.false_ne_true
  | completed _ _ hopen => exact absurd (hclosed.symm.trans hopen) Bool.false_ne_true
  | closed _ hwritten => exact hwritten

theorem Progress.of_idle (h : Progress b i t w [] []) (hopen : t.isOpen = true) : w = b.take t.offset := by
  cases h with
  | idle _ hwritten => exact hwritten
  | closed hclosed => exact absurd (hclosed.symm.trans hopen) Bool.false_ne_true

end

/-! ### Submitting -/

theorem isOpen_update (tasks : Fin n → IoTask) (i : Fin n) {t : IoTask} (h : t.isOpen = (tasks i).isOpen) (j : Fin n) :
    (Function.update tasks i t j).isOpen = (tasks j).isOpen := by
  rcases eq_or_ne j i with rfl | hne
  · rw [Function.update_self, h]
  · rw [Function.update_of_ne hne]

theorem isOpen_prepRead (s : St n) (i j : Fin n) : ((s.prepRead i).tasks j).isOpen = (s.tasks j).isOpen := by
  apply isOpen_update
  rfl

/-- the loop passes over closed files and stops when the queue is full -/
theorem prepReads_eq (room : ℕ) (is : List (Fin n)) (s : St n) :
    St.prepReads room is s = ((is.filter fun i => (s.tasks i).isOpen).take room).foldl St.prepRead s := by
  induction is generalizing room s with
  | nil => rw [St.prepReads, List.filter_nil, List.take_nil, List.foldl_nil]
  | cons i is ih =>
    unfold St.prepReads
    split_ifs with hopen
    · rw [List.filter_cons, if_pos hopen]
      cases room with
      | zero => rfl
      | succ room =>
        have hrest := ih room (s.prepRead i)
        simp only [isOpen_prepRead] at hrest
        rw [List.take_succ_cons, List.foldl_cons]
        exact hrest
    · rw [List.filter_cons, if_neg hopen]
      exact ih room s

theorem prepRead_inv (h : Inv c s) (hopen : (s.tasks i).isOpen = true) (hidle : s.Idle i) : Inv c (s.prepRead i) := by
  refine ⟨fun j => ?_, ?_, h.done⟩
  · have hj := h.files j
    rcases eq_or_ne i j with rfl | hne
    · rw [hidle.1, hidle.2] at hj
      show Progress _ _ (Function.update s.tasks i _ i) (s.written i) (ofFile i (s.flying ++ [_])) (ofFile i s.cq)
      rw [Function.update_self, ofFile_concat_self, hidle.1, hidle.2]
      exact .flying _ hopen rfl (hj.of_idle hopen)
    · show Progress _ _ (Function.update s.tasks i _ j) (s.written j) (ofFile j (s.flying ++ [_])) (ofFile j s.cq)
      rw [Function.update_of_ne hne.symm, ofFile_concat_of_ne _ _ hne]
      exact hj
  · show s.active = ∑ j, if ((s.prepRead i).tasks j).isOpen then 1 else 0
    simp only [isOpen_prepRead]
    exact h.active

theorem idle_prepRead (h : s.Idle j) (hne : i ≠ j) : (s.prepRead i).Idle j :=
  ⟨(ofFile_concat_of_ne _ _ hne).trans h.1, h.2⟩

theorem foldl_prepRead_inv (l : List (Fin n)) (hnodup : l.Nodup) (h : Inv c s)
    (hl : ∀ i ∈ l, (s.tasks i).isOpen = true ∧ s.Idle i) : Inv c (l.foldl St.prepRead s) := by
  induction l generalizing s with
  | nil => exact h
  | cons i l ih =>
    obtain ⟨hi, hnodup⟩ := List.nodup_cons.1 hnodup
    obtain ⟨hopen, hidle⟩ := hl i List.mem_cons_self
    refine ih hnodup (prepRead_inv h hopen hidle) fun j hj => ?_
    obtain ⟨hopenj, hidlej⟩ := hl j (List.mem_cons_of_mem i hj)
    exact ⟨(isOpen_prepRead s i j).trans hopenj, idle_prepRead hidlej (ne_of_mem_of_not_mem hj hi).symm⟩

theorem submit_inv (h : Inv c s) (hclear : ∀ i ∈ s.queued, s.Idle i) : Inv c s.submit := by
  have hqueued : Inv c (s.queued.foldl St.prepRead s) := by
    refine foldl_prepRead_inv _ ?_ h fun i hi => ⟨?_, hclear i hi⟩
    · exact ((List.nodup_finRange n).filter _).sublist (List.take_sublist _ _)
    · exact (List.mem_filter.1 (List.mem_of_mem_take hi)).2
  have hfiles := hqueued.files
  have hactive := hqueued.active
  rw [St.queued, ← prepReads_eq] at hfiles hactive
  exact ⟨hfiles, hactive, fun hdone => by simp [St.submit] at hdone⟩

/-! ### Completions -/

theorem isOpen_complete (s : St n) (r : Fin n × ℕ) (res : ℕ) (j : Fin n) :
    ((s.complete c r res).tasks j).isOpen = (s.tasks j).isOpen := by
  apply isOpen_update
  rfl

theorem complete_inv {off : ℕ} (h : Inv c s) (hr : (i, off) ∈ s.flying) :
    Inv c (s.complete c (i, off) (min blockSize ((c i).length - off))) := by
  have hmem : (i, off) ∈ ofFile i s.flying := List.mem_filter.2 ⟨hr, decide_eq_true rfl⟩
  obtain ⟨hflying, hcq, hopen, hoffset, hwritten⟩ := (h.files i).of_flying hmem
  refine ⟨fun j => ?_, ?_, h.done⟩
  · show Progress _ _ (Function.update s.tasks i _ j) (s.written j) (ofFile j (s.flying.erase _)) (ofFile j (s.cq ++ [_]))
    rcases eq_or_ne i j with rfl | hne
    · rw [Function.update_self, ofFile_erase, hflying, List.erase_cons_head, ofFile_concat_self, hcq, List.nil_append]
      refine .completed off _ hopen hoffset hwritten rfl ?_
      exact List.take_left' (length_bytesAt (min_le_right _ _))
    · rw [Function.update_of_ne hne.symm, ofFile_erase_of_ne _ _ hne, ofFile_concat_of_ne _ _ hne]
      exact h.files j
  · show s.active = ∑ j, if ((s.complete c (i, off) _).tasks j).isOpen then 1 else 0
    simp only [isOpen_complete]
    exact h.active

/-! ### Collecting -/

theorem written_collectWrite_self (s : St n) (i : Fin n) (res : ℕ) :
    (s.collectWrite i res).written i = s.written i ++ (s.tasks i).buf.take res := by
  simp [St.written, St.collectWrite]

theorem written_collectWrite_of_ne (s : St n) (res : ℕ) (h : i ≠ j) : (s.collectWrite i res).written j = s.written j := by
  simp [St.written, St.collectWrite, h]

variable {completions res : ℕ} {rest : List (Fin n × ℕ)}

/-- the head of the completion queue is the only entry of its file -/
theorem head_completed (h : Inv c s) (hcq : s.cq = (i, res) :: rest) :
    ofFile i s.flying = [] ∧ ofFile i rest = [] ∧ (s.tasks i).isOpen = true ∧
      ∃ off, (s.tasks i).offset = off + blockSize ∧ s.written i = (c i).take off ∧
        res = min blockSize ((c i).length - off) ∧ (s.tasks i).buf.take res = bytesAt (c i) off res := by
  have hi := h.files i
  rw [hcq, ofFile_cons_self] at hi
  exact hi.of_completed

theorem files_of_ne (h : Inv c s) (hcq : s.cq = (i, res) :: rest) (hne : i ≠ j) :
    Progress (c j) j (s.tasks j) (s.written j) (ofFile j s.flying) (ofFile j rest) := by
  have hj := h.files j
  rwa [hcq, ofFile_cons_of_ne _ _ hne] at hj

theorem collectWrite_inv (h : Inv c s) (hcq : s.cq = (i, res) :: rest) :
    Inv c { s.collectWrite i res with cq := rest, phase := .collect (completions + 1) } := by
  obtain ⟨hflying, hrest, hopen, off, hoffset, hwritten, hres, hbuf⟩ := head_completed h hcq
  refine ⟨fun j => ?_, h.active, fun hdone => Phase.noConfusion hdone⟩
  show Progress (c j) j (s.tasks j) ((s.collectWrite i res).written j) (ofFile j s.flying) (ofFile j rest)
  rcases eq_or_ne i j with rfl | hne
  · rw [hflying, hrest]
    refine .idle hopen ?_
    calc (s.collectWrite i res).written i
        = s.written i ++ (s.tasks i).buf.take res := written_collectWrite_self s i res
      _ = (c i).take off ++ bytesAt (c i) off res := by rw [hwritten, hbuf]
      _ = (c i).take (off + min blockSize ((c i).length - off)) := by rw [take_append_bytesAt, ← hres]
      _ = (c i).take (s.tasks i).offset := by rw [take_full, hoffset]
  · rw [written_collectWrite_of_ne s res hne]
    exact files_of_ne h hcq hne

/-- the read has asked for bytes behind the end -/
theorem collectClose_inv (h : Inv c s) (hcq : s.cq = (i, 0) :: rest) :
    Inv c { s.collectClose i with cq := rest, phase := .collect (completions + 1) } := by
  obtain ⟨hflying, hrest, hopen, off, -, hwritten, hres, -⟩ := head_completed h hcq
  refine ⟨fun j => ?_, ?_, fun hdone => Phase.noConfusion hdone⟩
  · show Progress (c j) j (Function.update s.tasks i _ j) (s.written j) (ofFile j s.flying) (ofFile j rest)
    rcases eq_or_ne i j with rfl | hne
    · rw [Function.update_self, hflying, hrest]
      refine .closed rfl ?_
      have hend : (c i).length ≤ off := by
        simp only [blockSize] at hres
        omega
      rw [hwritten, List.take_of_length_le hend]
    · rw [Function.update_of_ne hne.symm]
      exact files_of_ne h hcq hne
  · have hsum := sum_update (fun t : IoTask => if t.isOpen then (1 : ℤ) else 0) s.tasks i
      ⟨false, (s.tasks i).buf, (s.tasks i).offset⟩
    have hactive := h.active
    simp only [hopen, if_true, Bool.false_eq_true, if_false] at hsum
    show s.active - 1 = ∑ j, if (Function.update s.tasks i ⟨false, _, _⟩ j).isOpen then 1 else 0
    omega

theorem collect_inv (h : Inv c s) (hcq : s.cq = (i, res) :: rest) : Inv c (s.collect completions i res rest) := by
  unfold St.collect
  split_ifs with hpos
  · exact collectWrite_inv h hcq
  · obtain rfl : res = 0 := Nat.eq_zero_of_not_pos hpos
    exact collectClose_inv h hcq

theorem next_inv (h : Inv c s) : Inv c s.next := by
  refine ⟨h.files, h.active, fun hdone => ?_⟩
  unfold St.next at hdone
  dsimp only at hdone
  split_ifs at hdone with hactive
  exact not_lt.1 hactive

/-! ### Runs -/

theorem step_inv (c : Fin n → List UInt8) (s : St n) (a : Act n) (s' : St n) (hstep : step c s a = some s')
    (hclear : Clear c s a) (h : Inv c s) : Inv c s' := by
  cases a with
  | submit =>
    rw [step] at hstep
    split_ifs at hstep
    obtain rfl := Option.some.inj hstep
    exact submit_inv h hclear
  | complete r res =>
    rw [step] at hstep
    split_ifs at hstep with hr
    obtain rfl := Option.some.inj hstep
    obtain rfl : res = min blockSize ((c r.1).length - r.2) := hclear
    exact complete_inv h hr.2.1
  | collect =>
    rw [step] at hstep
    split at hstep
    next completions i res rest _ hcq =>
      split_ifs at hstep
      obtain rfl := Option.some.inj hstep
      exact collect_inv h hcq
    next => cases hstep
  | leave =>
    rw [step] at hstep
    split at hstep
    · obtain rfl := Option.some.inj hstep
      exact next_inv h
    · cases hstep

theorem init_inv (c : Fin n → List UInt8) : Inv c (St.init n) := by
  apply next_inv
  refine ⟨fun i => .idle rfl List.take_zero.symm, ?_, fun hdone => Phase.noConfusion hdone⟩
  simp

/-- no file is open when `active` counts none -/
theorem closed_of_done (h : Inv c s) (hdone : s.phase = .done) (i : Fin n) : (s.tasks i).isOpen = false := by
  have hnonneg : ∀ j ∈ Finset.univ, (0 : ℤ) ≤ if (s.tasks j).isOpen then 1 else 0 := by
    intro j _
    split_ifs <;> decide
  have hle := Finset.single_le_sum hnonneg (Finset.mem_univ i)
  have hactive := h.active ▸ h.done hdone
  by_contra hopen
  rw [if_pos (Bool.eq_true_of_not_eq_false hopen)] at hle
  omega

/-- **Reading to the end.** In a run in which no read is queued while another read of its file is in flight or not
collected, and no read is short: what has been written of a file is an initial part of it, and when the loop has ended every
file is closed and written whole. -/
theorem read_to_end (c : Fin n → List UInt8) (acts : List (Act n)) (s : St n) (hrun : run c acts = some s)
    (hclear : Machine.Meets (step c) (Clear c) (.init n) acts) :
    (∀ i, s.written i <+: c i) ∧ (s.phase = .done → ∀ i, (s.tasks i).isOpen = false ∧ s.written i = c i) := by
  have h : Inv c s := Machine.exec_inv_of_meets (step_inv c) hrun hclear (init_inv c)
  refine ⟨fun i => (h.files i).initial_part, fun hdone i => ?_⟩
  have hclosed := closed_of_done h hdone i
  exact ⟨hclosed, (h.files i).eq_of_closed hclosed⟩

/-- two bytes and an empty file -/
def twoFiles : Fin 2 → List UInt8
  | 0 => [104, 105]
  | 1 => []

/-- numerals of `Fin 2` -/
local instance neZeroTwo : NeZero 2 := ⟨two_ne_zero⟩

/-- the second file completes first -/
def inTurn : List (Act 2) :=
  [.submit, .complete (1, 0) 0, .complete (0, 0) 2, .collect, .collect, .leave, .submit,
    .complete (0, 65536) 0, .collect, .leave]

theorem read_to_end_inTurn : ∃ s, run twoFiles inTurn = some s ∧ s.phase = .done ∧
    ∀ i, (s.tasks i).isOpen = false ∧ s.written i = twoFiles i :=
  ⟨_, rfl, by decide, (read_to_end twoFiles inTurn _ rfl (by decide)).2 (by decide)⟩

/-- one file of two bytes -/
def oneFile : Fin 1 → List UInt8
  | 0 => [104, 105]

/-- `io_uring_peek_cqe` has nothing at first, and the second read completes before the first -/
def overtaken : List (Act 1) := [.submit, .leave, .submit, .complete (0, 65536) 0, .collect, .leave]

/-- **Ended early.** A second read is queued, behind the end of the file, and it completes first: the file is closed, and the
loop ends with nothing written. -/
theorem ended_early : ∃ s, run oneFile overtaken = some s ∧ s.phase = .done ∧ s.written 0 ≠ oneFile 0 :=
  ⟨_, rfl, by decide, by decide⟩

/-- the first read delivers one byte of two -/
def shortRead : List (Act 1) :=
  [.submit, .complete (0, 0) 1, .collect, .leave, .submit, .complete (0, 65536) 0, .collect, .leave]

/-- **A short read.** The next read is at the next block, and the second byte is never written. -/
theorem short_read_lost : ∃ s, run oneFile shortRead = some s ∧ s.phase = .done ∧ s.written 0 = [104] :=
  ⟨_, rfl, by decide, by decide⟩

end InterviewPrep.IoUring
