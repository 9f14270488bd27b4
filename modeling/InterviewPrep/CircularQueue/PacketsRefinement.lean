/-
The packet buffers refine one overwriting queue, and so agree.

`Holds mk s r xs`: a dynamic buffer whose window owns the blocks `xs`, with the arrivals of the reference in them, the flag
set exactly if the window is full, and every block ever allocated in exactly one of: freed, handed out, in the window. The
three things a call does to a buffer are proved once (`Holds.push`, `Holds.overwrite`, `Holds.take`); the two versions of
`enqueue` reach the same state in different orders. `Static.Holds` is the same for packets stored in place.

Results:
- `dequeue_fifo`: the C buffer answers like the queue, its non-NULL slots are the live window, and once it is destroyed
  every packet has been freed or handed out exactly once;
- `buffers_agree`: the C++ and the static buffer answer like the C buffer, and `size()` counts the packets kept.
-/
import InterviewPrep.CircularQueue.Packets

namespace InterviewPrep.CircularQueue

variable {α : Type} {cap : ℕ} {mk : Arrival → α} {s : Client α} {r : Ref cap} {xs : List ℕ} {x : ℕ}

/-! ## Dynamic buffers -/

theorem Heap.cells_discard {h : Heap α} {a b : ℕ} (hne : b ≠ a) : (h.discard a).cells b = h.cells b :=
  Function.update_of_ne hne ..

/-- the buffer holds the arrivals of the reference in the blocks `xs` -/
structure Holds (mk : Arrival → α) (s : Client α) (r : Ref cap) (xs : List ℕ) : Prop where
  capacity : s.buf.capacity = cap
  owned : Owned cap s.buf.buffer s.buf.head s.buf.tail xs
  full : s.buf.isFull = decide (xs.length = cap)
  cells : xs.map s.buf.heap.cells = r.queue.items.map fun a => some (mk a)
  arrived : s.buf.heap.next = r.arrived
  ledger : (s.buf.heap.freed ++ s.handed ++ xs).Perm (List.range s.buf.heap.next)

theorem create_holds (hcap : 1 ≤ cap) (mk : Arrival → α) :
    Holds mk (Client.create cap) (⟨Fifo.empty, 0⟩ : Ref cap) [] where
  capacity := rfl
  owned := Owned.empty hcap
  full := (decide_eq_false (Nat.ne_of_lt hcap)).symm
  cells := rfl
  arrived := rfl
  ledger := List.Perm.refl []

namespace Holds

theorem length (h : Holds mk s r xs) : r.queue.items.length = xs.length := by
  have hlen := congrArg List.length h.cells
  rw [List.length_map, List.length_map] at hlen
  exact hlen.symm

theorem nodup (h : Holds mk s r xs) : (s.buf.heap.freed ++ s.handed ++ xs).Nodup :=
  h.ledger.nodup_iff.2 List.nodup_range

theorem lt_next (h : Holds mk s r xs) {a : ℕ} (ha : a ∈ xs) : a < s.buf.heap.next :=
  List.mem_range.1 (h.ledger.mem_iff.1 (List.mem_append_right _ ha))

/-- the oldest block holds the oldest arrival -/
theorem oldest (h : Holds mk s r (x :: xs)) :
    ∃ a as, r.queue.items = a :: as ∧ s.buf.heap.cells x = some (mk a) ∧
      xs.map s.buf.heap.cells = as.map fun a => some (mk a) := by
  have hcells := h.cells
  rcases hitems : r.queue.items with - | ⟨a, as⟩
  · rw [hitems] at hcells
    cases hcells
  · rw [hitems, List.map_cons, List.map_cons] at hcells
    obtain ⟨hx, hxs⟩ := List.cons.inj hcells
    exact ⟨a, as, rfl, hx, hxs⟩

/-- a new block does not touch the old ones -/
theorem cells_alloc (h : Holds mk s r xs) (h' : Heap α) (hnext : h'.next = s.buf.heap.next)
    {as : List Arrival} {ys : List ℕ} (hys : ∀ y ∈ ys, y ∈ xs) (hcells : ys.map h'.cells = as.map fun a => some (mk a))
    (a : Arrival) :
    (ys ++ [s.buf.heap.next]).map (h'.alloc (mk a)).cells = (as ++ [a]).map fun a => some (mk a) := by
  have hold : ys.map (h'.alloc (mk a)).cells = ys.map h'.cells := by
    apply List.map_congr_left
    intro y hy
    have hne : y ≠ h'.next := hnext ▸ Nat.ne_of_lt (h.lt_next (hys y hy))
    exact Function.update_of_ne hne ..
  rw [List.map_append, hold, hcells, List.map_append]
  simp [Heap.alloc, hnext]

/-- while there is room, an arrival goes to slot `head` -/
theorem push (h : Holds mk s r xs) (hroom : xs.length < cap) (a : Arrival) :
    Holds mk ⟨⟨Function.update s.buf.buffer s.buf.head (some s.buf.heap.next), s.buf.capacity,
        (s.buf.head + 1) % cap, s.buf.tail, decide (xs.length + 1 = cap), s.buf.heap.alloc (mk a)⟩, s.handed⟩
      ⟨r.queue.push a, r.arrived + 1⟩ (xs ++ [s.buf.heap.next]) where
  capacity := h.capacity
  owned := h.owned.push hroom _
  full := by rw [List.length_append, List.length_singleton]
  cells := by
    rw [Fifo.push_room (h.length.trans_lt hroom)]
    exact h.cells_alloc _ rfl (fun _ hy => hy) h.cells a
  arrived := congrArg Nat.succ h.arrived
  ledger := by
    show (s.buf.heap.freed ++ s.handed ++ (xs ++ [s.buf.heap.next])).Perm (List.range (s.buf.heap.next + 1))
    rw [List.range_succ, ← List.append_assoc]
    exact h.ledger.append_right _

/-- in a full buffer the oldest block is freed and its slot reused -/
theorem overwrite (h : Holds mk s r (x :: xs)) (hfull : xs.length + 1 = cap) (a : Arrival) :
    Holds mk ⟨⟨Function.update s.buf.buffer s.buf.tail (some s.buf.heap.next), s.buf.capacity,
        (s.buf.tail + 1) % cap, (s.buf.tail + 1) % cap, true, (s.buf.heap.discard x).alloc (mk a)⟩, s.handed⟩
      ⟨r.queue.push a, r.arrived + 1⟩ (xs ++ [s.buf.heap.next]) := by
  obtain ⟨b, bs, hitems, -, hcells⟩ := h.oldest
  have hx : x ∉ xs := (List.nodup_cons.1 (List.nodup_append.1 h.nodup).2.1).1
  refine ⟨h.capacity, h.owned.overwrite hfull _, ?_, ?_, congrArg Nat.succ h.arrived, ?_⟩
  · simp [hfull]
  · have hkept : xs.map (s.buf.heap.discard x).cells = bs.map fun a => some (mk a) := by
      rw [← hcells]
      apply List.map_congr_left
      intro y hy
      exact Heap.cells_discard (ne_of_mem_of_not_mem hy hx)
    rw [Fifo.push_full hitems (h.length.trans hfull)]
    exact h.cells_alloc (s.buf.heap.discard x) rfl (fun y hy => List.mem_cons_of_mem x hy) hkept a
  · show (s.buf.heap.freed ++ [x] ++ s.handed ++ (xs ++ [s.buf.heap.next])).Perm (List.range (s.buf.heap.next + 1))
    rw [List.range_succ, ← List.append_assoc]
    refine List.Perm.append_right _ (List.Perm.trans ?_ h.ledger)
    simp only [List.append_assoc, List.singleton_append]
    exact (List.perm_middle.symm).append_left _

/-- a packet taken out leaves its slot empty -/
theorem take (h : Holds mk s r (x :: xs)) :
    ∃ a, r.queue.pop.2 = some a ∧ s.buf.heap.cells x = some (mk a) ∧
      Holds mk ⟨s.buf.take, s.handed ++ [x]⟩ ⟨r.queue.pop.1, r.arrived⟩ xs := by
  obtain ⟨a, as, hitems, hx, hcells⟩ := h.oldest
  have hlen : xs.length + 1 ≤ cap := by simpa using h.owned.window.bounded
  obtain ⟨hrest, hfirst⟩ := Fifo.pop_cons hitems
  refine ⟨a, hfirst, hx, h.capacity, ?_, ?_, ?_, h.arrived, ?_⟩
  · rw [PacketBuffer.take, h.capacity]
    exact h.owned.pop
  · exact (decide_eq_false (Nat.ne_of_lt hlen)).symm
  · rw [hrest]
    exact hcells
  · show (s.buf.heap.freed ++ (s.handed ++ [x]) ++ xs).Perm (List.range s.buf.heap.next)
    simpa using h.ledger

/-- the flag and the indices tell an empty buffer -/
theorem empty_iff (h : Holds mk s r xs) : (s.buf.head = s.buf.tail ∧ s.buf.isFull = false) ↔ xs = [] := by
  have hcap := Nat.zero_lt_of_lt h.owned.window.tail_lt
  rw [h.owned.window.head_eq_tail_iff, h.full, List.map_eq_nil_iff, List.length_map, decide_eq_false_iff_not]
  constructor
  · rintro ⟨hempty | hlen, hnot⟩
    · exact hempty
    · exact absurd hlen hnot
  · rintro rfl
    exact ⟨Or.inl rfl, Nat.ne_of_lt hcap⟩

theorem pop_empty (h : Holds mk s r []) : r.queue.pop = (r.queue, none) := by
  obtain ⟨⟨items, hb⟩, arrived⟩ := r
  obtain rfl : items = [] := List.eq_nil_of_length_eq_zero h.length
  rfl

/-- after a push, `head` has come round to `tail` exactly if the buffer is full -/
theorem wrapped_iff (h : Holds mk s r xs) (hroom : xs.length < cap) :
    (s.buf.head + 1) % cap = s.buf.tail ↔ xs.length + 1 = cap := by
  rw [(h.owned.push hroom 0).window.head_eq_tail_iff]
  simp

/-- a call of `dequeue`, whichever way it tests for emptiness -/
theorem receive (h : Holds mk s r xs) {ret : PacketBuffer α × Option (Option ℕ)}
    (hret : ret = if xs = [] then (s.buf, none) else (s.buf.take, some (s.buf.buffer s.buf.tail))) :
    (s.receive ret).2 = r.queue.pop.2.map mk ∧ ∃ ys, Holds mk (s.receive ret).1 ⟨r.queue.pop.1, r.arrived⟩ ys := by
  rcases xs with - | ⟨x, xs⟩
  · rw [hret, if_pos rfl, h.pop_empty]
    refine ⟨rfl, [], ?_⟩
    simpa [Client.receive] using h
  · obtain ⟨a, hpop, hx, htake⟩ := h.take
    have htail : s.buf.buffer s.buf.tail = some x := h.owned.window.read_tail
    rw [hret, if_neg (List.cons_ne_nil x xs), hpop, Client.receive, htail]
    exact ⟨hx, xs, htake⟩

/-- what `enqueue` finds: room, or a full buffer with the oldest packet at `tail` -/
theorem room_or_full (h : Holds mk s r xs) :
    (xs.length < cap ∧ s.buf.isFull = false) ∨
    ∃ x ys a, xs = x :: ys ∧ ys.length + 1 = cap ∧ s.buf.isFull = true ∧ s.buf.buffer s.buf.tail = some x ∧
      s.buf.heap.cells x = some (mk a) := by
  rcases Nat.lt_or_ge xs.length cap with hroom | hge
  · exact .inl ⟨hroom, h.full.trans (decide_eq_false (Nat.ne_of_lt hroom))⟩
  · have hfull : xs.length = cap := Nat.le_antisymm (by simpa using h.owned.window.bounded) hge
    have hcap := Nat.zero_lt_of_lt h.owned.window.tail_lt
    rcases xs with - | ⟨x, ys⟩
    · exact absurd hfull (Nat.ne_of_lt hcap)
    · obtain ⟨a, -, -, hx, -⟩ := h.oldest
      exact .inr ⟨x, ys, a, rfl, hfull, h.full.trans (decide_eq_true hfull), h.owned.window.read_tail, hx⟩

end Holds

/-! ## The two versions of `enqueue` -/

theorem Dynamic.enqueue_holds {s : Client Dynamic.Packet} (h : Holds Dynamic.Packet.of s r xs) (data : Bytes)
    (now : ℕ) :
    ∃ b ys, Dynamic.enqueue s.buf data now = some b ∧
      Holds Dynamic.Packet.of ⟨b, s.handed⟩ ⟨r.queue.push (data, now), r.arrived + 1⟩ ys := by
  rcases h.room_or_full with ⟨hroom, hflag⟩ | ⟨x, ys, a, rfl, hfull, hflag, htail, hx⟩
  · refine ⟨_, _, ?_, h.push hroom (data, now)⟩
    simp [enqueue, hflag, PacketBuffer.put, PacketBuffer.setHead, PacketBuffer.setFull, h.capacity,
      h.wrapped_iff hroom, Packet.of]
  · refine ⟨_, _, ?_, h.overwrite hfull (data, now)⟩
    have hhead : s.buf.head = s.buf.tail := h.owned.window.full (by rwa [List.length_map])
    simp [enqueue, hflag, htail, Heap.free, hx, PacketBuffer.put, PacketBuffer.setHead, PacketBuffer.setTail,
      PacketBuffer.setHeap, PacketBuffer.setFull, h.capacity, hhead, Packet.of, Heap.discard]

theorem DynamicCpp.enqueue_holds {s : Client DynamicCpp.Packet} (h : Holds DynamicCpp.Packet.of s r xs) (data : Bytes)
    (now : ℕ) :
    ∃ b ys, DynamicCpp.enqueue s.buf data now = some b ∧
      Holds DynamicCpp.Packet.of ⟨b, s.handed⟩ ⟨r.queue.push (data, now), r.arrived + 1⟩ ys := by
  rcases h.room_or_full with ⟨hroom, hflag⟩ | ⟨x, ys, a, rfl, hfull, hflag, htail, hx⟩
  · refine ⟨_, _, ?_, h.push hroom (data, now)⟩
    simp only [enqueue, hflag, Bool.false_eq_true, if_false, PacketBuffer.put, PacketBuffer.setHead,
      PacketBuffer.setFull, h.capacity, h.wrapped_iff hroom, Packet.of]
    split_ifs with hlast
    · simp [hlast]
    · simp [hlast]
  · refine ⟨_, _, ?_, h.overwrite hfull (data, now)⟩
    simp [enqueue, hflag, htail, delete, Heap.free, hx, PacketBuffer.put, PacketBuffer.setHead, PacketBuffer.setTail,
      PacketBuffer.setHeap, h.capacity, Packet.of, Heap.discard]

/-! ## Runs of the dynamic buffers -/

theorem Dynamic.step_refines (s : Client Packet) (r : Ref cap) (op : Op) (h : ∃ xs, Holds Packet.of s r xs) :
    ∃ s' o, step s op = some (s', o) ∧ o = (Ref.step r op).2.map Packet.of ∧
      ∃ ys, Holds Packet.of s' (Ref.step r op).1 ys := by
  obtain ⟨xs, h⟩ := h
  cases op with
  | enqueue data now =>
    obtain ⟨b, ys, henqueue, hb⟩ := enqueue_holds h data now
    exact ⟨⟨b, s.handed⟩, none, by rw [step, henqueue, Option.map_some], rfl, ys, hb⟩
  | dequeue =>
    have hret : dequeue s.buf true = if xs = [] then (s.buf, none) else (s.buf.take, some (s.buf.buffer s.buf.tail)) := by
      simp [dequeue, ← h.empty_iff]
    obtain ⟨hout, hnext⟩ := h.receive hret
    exact ⟨_, _, rfl, hout, hnext⟩

theorem DynamicCpp.step_refines (s : Client Packet) (r : Ref cap) (op : Op) (h : ∃ xs, Holds Packet.of s r xs) :
    ∃ s' o, step s op = some (s', o) ∧ o = (Ref.step r op).2.map Packet.of ∧
      ∃ ys, Holds Packet.of s' (Ref.step r op).1 ys := by
  obtain ⟨xs, h⟩ := h
  cases op with
  | enqueue data now =>
    obtain ⟨b, ys, henqueue, hb⟩ := enqueue_holds h data now
    exact ⟨⟨b, s.handed⟩, none, by rw [step, henqueue, Option.map_some], rfl, ys, hb⟩
  | dequeue =>
    have hret : dequeue s.buf = if xs = [] then (s.buf, none) else (s.buf.take, some (s.buf.buffer s.buf.tail)) := by
      simp [dequeue, isEmpty, ← h.empty_iff, and_comm]
    obtain ⟨hout, hnext⟩ := h.receive hret
    exact ⟨_, _, rfl, hout, hnext⟩

theorem Dynamic.run_refines (hcap : 1 ≤ cap) (ops : List Op) :
    ∃ s log, run cap ops = some (s, log) ∧ log = (Ref.run cap ops).2.map (Option.map Packet.of) ∧
      ∃ xs, Holds Packet.of s (Ref.run cap ops).1 xs := by
  obtain ⟨s, log, hrun, hlog, h⟩ := Machine.run_simulates (f := id) (fun op _ s r => step_refines s r op)
    ⟨[], create_holds hcap Packet.of⟩
  exact ⟨s, log, hrun, (List.map_id log).symm.trans hlog, h⟩

theorem DynamicCpp.run_refines (hcap : 1 ≤ cap) (ops : List Op) :
    ∃ s log, run cap ops = some (s, log) ∧ log = (Ref.run cap ops).2.map (Option.map Packet.of) ∧
      ∃ xs, Holds Packet.of s (Ref.run cap ops).1 xs := by
  obtain ⟨s, log, hrun, hlog, h⟩ := Machine.run_simulates (f := id) (fun op _ s r => step_refines s r op)
    ⟨[], create_holds hcap Packet.of⟩
  exact ⟨s, log, hrun, (List.map_id log).symm.trans hlog, h⟩

/-! ## The live window and its end -/

theorem Holds.count_eq (h : Holds mk s r xs) : s.buf.count = xs.length := by
  unfold PacketBuffer.count
  rw [h.full, h.capacity]
  split_ifs with hfull
  · exact (of_decide_eq_true hfull).symm
  · have hlen : xs.length < cap := by
      have hbound := h.owned.window.bounded
      rw [List.length_map] at hbound
      exact Nat.lt_of_le_of_ne hbound (by simpa using hfull)
    rw [h.owned.window.distance (by rwa [List.length_map]), List.length_map, Int.toNat_natCast]

/-- distinct live blocks can all be freed -/
theorem Heap.freeAll (as : List ℕ) {h : Heap α} (hnodup : as.Nodup) (hlive : ∀ a ∈ as, (h.cells a).isSome) :
    ∃ h', as.foldlM Heap.free h = some h' ∧ h'.freed = h.freed ++ as := by
  induction as generalizing h with
  | nil => exact ⟨h, rfl, (List.append_nil _).symm⟩
  | cons a as ih =>
    obtain ⟨ha, hnodup⟩ := List.nodup_cons.1 hnodup
    have hrest : ∀ b ∈ as, ((h.discard a).cells b).isSome := by
      intro b hb
      rw [Heap.cells_discard (ne_of_mem_of_not_mem hb ha)]
      exact hlive b (List.mem_cons_of_mem a hb)
    obtain ⟨h', hfree, hfreed⟩ := ih hnodup hrest
    refine ⟨h', ?_, ?_⟩
    · rw [List.foldlM_cons, Heap.free, if_pos (hlive a List.mem_cons_self)]
      exact hfree
    · rw [hfreed, Heap.discard, List.append_assoc, List.singleton_append]

/-- `destroy_buffer` frees what is in the window, and then all is accounted for -/
theorem Holds.destroy (h : Holds mk s r xs) :
    ∃ heap, s.buf.destroyBuffer = some heap ∧ (heap.freed ++ s.handed).Perm (List.range r.arrived) := by
  have hperm := h.owned.perm
  have hnodup : xs.Nodup := (List.nodup_append.1 h.nodup).2.1
  have hlive : ∀ a ∈ xs, (s.buf.heap.cells a).isSome := by
    intro a ha
    have hmem := List.mem_map_of_mem (f := s.buf.heap.cells) ha
    rw [h.cells] at hmem
    obtain ⟨b, -, hb⟩ := List.mem_map.1 hmem
    rw [← hb]
    rfl
  obtain ⟨heap, hfree, hfreed⟩ := Heap.freeAll ((List.range cap).filterMap s.buf.buffer) (hperm.nodup_iff.2 hnodup)
    fun a ha => hlive a (hperm.mem_iff.1 ha)
  refine ⟨heap, ?_, ?_⟩
  · rw [PacketBuffer.destroyBuffer, h.capacity, hfree]
  · rw [hfreed, ← h.arrived]
    refine List.Perm.trans ?_ h.ledger
    rw [List.append_assoc, List.append_assoc]
    exact (List.perm_append_comm.trans (hperm.append_left _)).append_left _

/-- **The C packet buffer.** For every capacity and every run of calls, `dequeue` hands out what the overwriting queue does;
the non-NULL slots are exactly the `count` slots from `tail`; and if the buffer is then destroyed, every packet allocated
has been freed or handed out, exactly once. -/
theorem dequeue_fifo (cap : ℕ) (hcap : 1 ≤ cap) (ops : List Op) :
    ∃ s log heap, Dynamic.run cap ops = some (s, log) ∧
      log = (Ref.run cap ops).2.map (Option.map Dynamic.Packet.of) ∧
      (∀ j < cap, (s.buf.buffer j).isSome ↔ ∃ i < s.buf.count, j = (s.buf.tail + i) % cap) ∧
      s.buf.destroyBuffer = some heap ∧ (heap.freed ++ s.handed).Perm (List.range (Ref.run cap ops).1.arrived) := by
  obtain ⟨s, log, hrun, hlog, xs, h⟩ := Dynamic.run_refines hcap ops
  obtain ⟨heap, hdestroy, hledger⟩ := h.destroy
  refine ⟨s, log, heap, hrun, hlog, ?_, hdestroy, hledger⟩
  intro j hj
  rw [h.count_eq]
  exact h.owned.isSome_iff hj

/-- capacity 2, three packets: the first is overwritten -/
theorem dequeue_fifo_overwrite :
    ∃ s, Dynamic.run 2 [.enqueue [1] 0, .enqueue [2] 1, .enqueue [3] 2, .dequeue, .dequeue] =
      some (s, [none, none, none, some ⟨[2], 1, 1⟩, some ⟨[3], 1, 2⟩]) := by
  obtain ⟨s, log, -, hrun, hlog, -⟩ :=
    dequeue_fifo 2 (by decide) [.enqueue [1] 0, .enqueue [2] 1, .enqueue [3] 2, .dequeue, .dequeue]
  have hanswers : log = [none, none, none, some ⟨[2], 1, 1⟩, some ⟨[3], 1, 2⟩] := hlog.trans (by decide)
  exact ⟨s, hanswers ▸ hrun⟩

/-! ## `size()` -/

theorem DynamicCpp.size_eq {s : Client Packet} (h : Holds Packet.of s r xs) : size s.buf = xs.length := by
  unfold size
  rw [h.full, h.capacity]
  have hbound := h.owned.window.bounded
  rw [List.length_map] at hbound
  split_ifs with hfull hle
  · rw [of_decide_eq_true hfull]
  all_goals
    have hroom : xs.length < cap := Nat.lt_of_le_of_ne hbound (by simpa using hfull)
    have hhead := h.owned.window.head_lt
    have htail := h.owned.window.tail_lt
    have hdist := h.owned.window.distance (by rwa [List.length_map])
    rw [List.length_map] at hdist
  · rw [← hdist, Int.emod_eq_of_lt (by omega) (by omega)]
  · rw [← hdist, ← Int.add_emod_right, Int.emod_eq_of_lt (by omega) (by omega)]
    omega

/-- the blocks neither freed nor handed out are those in the window -/
theorem Holds.remaining (h : Holds mk s r xs) :
    ((List.range r.arrived).filter fun a => a ∉ s.buf.heap.freed ∧ a ∉ s.handed).length = xs.length := by
  rw [← h.arrived, (h.ledger.filter _).length_eq.symm, List.filter_append, List.filter_append]
  have hgone : (s.buf.heap.freed.filter fun a => a ∉ s.buf.heap.freed ∧ a ∉ s.handed) = [] := by
    simp +contextual [List.filter_eq_nil_iff]
  have hhanded : (s.handed.filter fun a => a ∉ s.buf.heap.freed ∧ a ∉ s.handed) = [] := by
    simp +contextual [List.filter_eq_nil_iff]
  have hkept : (xs.filter fun a => a ∉ s.buf.heap.freed ∧ a ∉ s.handed) = xs := by
    rw [List.filter_eq_self]
    intro a ha
    have happart := (List.nodup_append.1 h.nodup).2.2
    simp only [decide_eq_true_eq]
    exact ⟨fun hmem => happart a (List.mem_append_left _ hmem) a ha rfl,
      fun hmem => happart a (List.mem_append_right _ hmem) a ha rfl⟩
  rw [hgone, hhanded, hkept, List.append_nil, List.nil_append]

/-! ## The static buffer -/

namespace Static

/-- the packets of the window are the arrivals of the reference, up to what lies behind them -/
structure Holds (pb : Buffer) (r : Ref bufferCapacity) (ps : List Packet) : Prop where
  window : Window bufferCapacity pb.buffer pb.head pb.tail ps
  full : pb.isFull = decide (ps.length = bufferCapacity)
  payloads : ps.map Packet.payload = r.queue.items.map fun a => (a.1.length, a.1)

variable {pb : Buffer} {r : Ref bufferCapacity} {ps : List Packet}

theorem Holds.length (h : Holds pb r ps) : r.queue.items.length = ps.length := by
  have hlen := congrArg List.length h.payloads
  rw [List.length_map, List.length_map] at hlen
  exact hlen.symm

theorem payload_write (old data : Bytes) (now : ℕ) :
    (⟨memcpy old data, data.length, now⟩ : Packet).payload = (data.length, data) := by
  simp [Packet.payload, memcpy]

theorem push_holds (h : Holds pb r ps) {data : Bytes} (hsize : data.length ≤ maxPacketSize) (now : ℕ) :
    ∃ qs, Holds (packetBufferPush pb data now).1 ⟨r.queue.push (data, now), r.arrived + 1⟩ qs := by
  rw [packetBufferPush, if_neg (Nat.not_lt.2 hsize)]
  set p : Packet := ⟨memcpy (pb.buffer pb.head).data data, data.length, now⟩ with hp
  have hpayload : p.payload = (data.length, data) := payload_write ..
  rcases Nat.lt_or_ge ps.length bufferCapacity with hroom | hge
  · have hflag : pb.isFull = false := h.full.trans (decide_eq_false (Nat.ne_of_lt hroom))
    have hpush := h.window.push hroom p
    refine ⟨ps ++ [p], ?_, ?_, ?_⟩
    · simpa [Buffer.write, Buffer.setFull, hflag] using hpush
    · simp [Buffer.write, Buffer.setFull, hflag, hpush.head_eq_tail_iff]
    · rw [Fifo.push_room (h.length.trans_lt hroom), List.map_append, List.map_append, h.payloads]
      simp [hpayload]
  · have hfull : ps.length = bufferCapacity := Nat.le_antisymm h.window.bounded hge
    rcases ps with - | ⟨p₀, ps⟩
    · cases hfull
    · have hflag : pb.isFull = true := h.full.trans (decide_eq_true hfull)
      have hhead : pb.head = pb.tail := h.window.full hfull
      have hover := h.window.overwrite hfull p
      refine ⟨ps ++ [p], ?_, ?_, ?_⟩
      · simpa [Buffer.write, Buffer.setFull, Buffer.setTail, hflag, hhead, hp] using hover
      · simpa [Buffer.write, Buffer.setFull, Buffer.setTail, hflag, hhead] using hfull
      · have hpayloads := h.payloads
        rcases hitems : r.queue.items with - | ⟨a, as⟩
        · rw [hitems] at hpayloads
          cases hpayloads
        · rw [hitems, List.map_cons, List.map_cons] at hpayloads
          rw [Fifo.push_full hitems (h.length.trans hfull), List.map_append, List.map_append,
            (List.cons.inj hpayloads).2]
          simp [hpayload]

theorem pop_holds (h : Holds pb r ps) :
    ((packetBufferPop pb true).2.bind Prod.snd).map Packet.payload = r.queue.pop.2.map (fun a => (a.1.length, a.1)) ∧
      ∃ qs, Holds (packetBufferPop pb true).1 ⟨r.queue.pop.1, r.arrived⟩ qs := by
  have hempty : (pb.head = pb.tail ∧ pb.isFull = false) ↔ ps = [] := by
    rw [h.window.head_eq_tail_iff, h.full, decide_eq_false_iff_not]
    constructor
    · rintro ⟨hnil | hlen, hnot⟩
      · exact hnil
      · exact absurd hlen hnot
    · rintro rfl
      exact ⟨Or.inl rfl, by decide⟩
  have hpayloads := h.payloads
  rcases ps with - | ⟨p, ps⟩
  · obtain ⟨⟨items, hb⟩, arrived⟩ := r
    obtain rfl : items = [] := List.eq_nil_of_length_eq_zero h.length
    obtain ⟨hhead, hflag⟩ := hempty.2 rfl
    rw [packetBufferPop, if_pos ⟨hhead, by rw [hflag]; rfl, rfl⟩]
    exact ⟨rfl, [], h⟩
  · have hnot : ¬(pb.head = pb.tail ∧ (!pb.isFull) = true ∧ true = true) := by
      rintro ⟨hhead, hflag, -⟩
      cases hempty.1 ⟨hhead, by simpa using hflag⟩
    rcases hitems : r.queue.items with - | ⟨a, as⟩
    · rw [hitems] at hpayloads
      cases hpayloads
    · rw [hitems, List.map_cons, List.map_cons] at hpayloads
      obtain ⟨hp, hps⟩ := List.cons.inj hpayloads
      obtain ⟨hrest, hfirst⟩ := Fifo.pop_cons hitems
      rw [packetBufferPop, if_neg hnot, if_neg (by decide), hfirst]
      refine ⟨?_, ps, h.window.pop, ?_, ?_⟩
      · rw [h.window.read_tail]
        exact congrArg some hp
      · exact (decide_eq_false (Nat.ne_of_lt h.window.bounded)).symm
      · rw [hrest]
        exact hps

theorem run_refines (buffer : ℕ → Packet) {ops : List Op}
    (hsize : ∀ data now, .enqueue data now ∈ ops → data.length ≤ maxPacketSize) :
    ∃ pb log, run buffer ops = some (pb, log) ∧
      log.map (Option.map Packet.payload) =
        (Ref.run bufferCapacity ops).2.map (Option.map fun a => (a.1.length, a.1)) := by
  have hinit : ∃ ps, Holds (packetBufferInit buffer) ⟨Fifo.empty, 0⟩ ps :=
    ⟨[], Window.empty (Nat.zero_lt_succ 7) buffer, rfl, rfl⟩
  have hstep : ∀ op ∈ ops, ∀ pb r, (∃ ps, Holds pb r ps) → ∃ pb' o, step pb op = some (pb', o) ∧
      o.map Packet.payload = (Ref.step r op).2.map (fun a => (a.1.length, a.1)) ∧
      ∃ qs, Holds pb' (Ref.step r op).1 qs := by
    intro op hop pb r ⟨ps, h⟩
    cases op with
    | enqueue data now => exact ⟨_, _, rfl, rfl, push_holds h (hsize data now hop) now⟩
    | dequeue =>
      obtain ⟨hout, hnext⟩ := pop_holds h
      exact ⟨_, _, rfl, hout, hnext⟩
  obtain ⟨pb, log, hrun, hlog, -⟩ := Machine.run_simulates hstep hinit
  exact ⟨pb, log, hrun, hlog⟩

end Static

/-! ## Agreement -/

/-- **The three buffers agree.** For every capacity and every run of calls the C++ buffer answers like the C buffer and its
`size()` is the number of packets enqueued and neither overwritten nor dequeued. With capacity 8 and packets of at most
1024 bytes the static buffer gives the same sizes and bytes, whatever its arrays held before; a longer packet is refused. -/
theorem buffers_agree (c : ℕ) (hc : 1 ≤ c) (ops : List Op) :
    ∃ s log t log', Dynamic.run c ops = some (s, log) ∧ DynamicCpp.run c ops = some (t, log') ∧
      log'.map (Option.map fun p => (p.data, p.timestamp)) = log.map (Option.map fun p => (p.data, p.timestamp)) ∧
      DynamicCpp.size t.buf =
        ((List.range (Ref.run c ops).1.arrived).filter fun a => a ∉ t.buf.heap.freed ∧ a ∉ t.handed).length ∧
      (c = Static.bufferCapacity → (∀ data now, .enqueue data now ∈ ops → data.length ≤ Static.maxPacketSize) →
        ∀ buffer, ∃ pb log'', Static.run buffer ops = some (pb, log'') ∧
          log''.map (Option.map Static.Packet.payload) = log.map (Option.map Dynamic.Packet.payload)) ∧
      ∀ pb data now, Static.maxPacketSize < data.length → Static.packetBufferPush pb data now = (pb, -1) := by
  obtain ⟨s, log, hrun, hlog, -⟩ := Dynamic.run_refines hc ops
  obtain ⟨t, log', hrun', hlog', xs, h⟩ := DynamicCpp.run_refines hc ops
  refine ⟨s, log, t, log', hrun, hrun', ?_, ?_, ?_, ?_⟩
  · rw [hlog, hlog', List.map_map, List.map_map]
    apply List.map_congr_left
    intro o _
    cases o <;> rfl
  · rw [DynamicCpp.size_eq h, h.remaining]
  · intro hc8 hsize buffer
    subst hc8
    obtain ⟨pb, log'', hrun'', hlog''⟩ := Static.run_refines buffer hsize
    refine ⟨pb, log'', hrun'', ?_⟩
    rw [hlog'', hlog, List.map_map]
    apply List.map_congr_left
    intro o _
    cases o with
    | none => rfl
    | some a => simp [Dynamic.Packet.payload, Dynamic.Packet.of]
  · intro pb data now hlong
    rw [Static.packetBufferPush, if_pos hlong]

/-- nine packets for eight places: the first is overwritten -/
def overfull : List Op :=
  [.enqueue [0] 0, .enqueue [1] 1, .enqueue [2] 2, .enqueue [3] 3, .enqueue [4] 4, .enqueue [5] 5, .enqueue [6] 6, .enqueue [7] 7,
    .enqueue [8, 9] 8, .dequeue]

theorem buffers_agree_eight :
    ∃ t log, DynamicCpp.run 8 overfull = some (t, log) ∧
      (log.map (Option.map fun p => (p.data, p.timestamp))).getLast? = some (some ([1], 1)) ∧
      ∀ buffer, ∃ pb log'', Static.run buffer overfull = some (pb, log'') ∧
        (log''.map (Option.map Static.Packet.payload)).getLast? = some (some (1, [1])) := by
  obtain ⟨s, log, t, log', hrun, hrun', hsame, -, hstatic, -⟩ := buffers_agree 8 (by decide) overfull
  have hanswers : (Dynamic.run 8 overfull).map (fun r => r.2.getLast?) = some (some (some ⟨[1], 1, 1⟩)) := by decide +kernel
  rw [hrun, Option.map_some, Option.some.injEq] at hanswers
  have hsize : ∀ data now, .enqueue data now ∈ overfull → data.length ≤ Static.maxPacketSize := by
    intro data now hmem
    simp only [overfull, List.mem_cons, Op.enqueue.injEq, reduceCtorEq, List.not_mem_nil, or_false] at hmem
    rcases hmem with ⟨rfl, -⟩ | ⟨rfl, -⟩ | ⟨rfl, -⟩ | ⟨rfl, -⟩ | ⟨rfl, -⟩ | ⟨rfl, -⟩ | ⟨rfl, -⟩ | ⟨rfl, -⟩ | ⟨rfl, -⟩ <;> decide
  refine ⟨t, log', hrun', ?_, fun buffer => ?_⟩
  · rw [hsame, List.getLast?_map, hanswers]
    rfl
  · obtain ⟨pb, log'', hrun'', hlog''⟩ := hstatic rfl hsize buffer
    refine ⟨pb, log'', hrun'', ?_⟩
    rw [hlog'', List.getLast?_map, hanswers]
    rfl

end InterviewPrep.CircularQueue
