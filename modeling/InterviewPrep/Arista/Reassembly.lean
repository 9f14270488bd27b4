/-
Reassembly under arbitrary delivery: order, interleaving and duplication.

Abstract behaviour, for each message: a collector of fragment numbers (`Core.Collect`), which starts over when the
message is complete. `Tracks m b S`: the buffer holds exactly the fragments S of m. `Follows m r S`: the reassembler has
such a buffer, or none if S is empty.

`processFragment_follows` is the step: one packet of m does to its buffer what one piece does to the collector, emits the
message exactly at a completion, and leaves the other buffers alone. `run_simulates` lifts it to whole runs, for any
messages with distinct ids, any packets of theirs in any order, and cleanups that find nothing expired.

Results:
- `reassembly_correct`: if every packet is delivered and none after its message is complete, every message is emitted
  once, byte for byte, with its last missing fragment, and no buffer is left;
- `tolerates_iff`: a message is emitted at most once, with no buffer kept for it afterwards, exactly if none of its
  packets arrives after it is complete; `late_duplicates` are the smallest runs on which this fails.

Premises: message ids are distinct and a message has at most 65535 fragments (`Message`).
-/
import InterviewPrep.Arista.Fragmentation
import InterviewPrep.Core.Collect

namespace InterviewPrep.Arista

open Collect

/-! ## One buffer -/

/-- the buffer holds exactly the fragments `S` of the message -/
structure Tracks (m : Message) (b : ReassemblyBuffer) (S : Finset ℕ) : Prop where
  total : b.totalFragments.toNat = m.count
  length : b.fragments.length = m.count
  received : b.received = (List.range m.count).map fun i => decide (i ∈ S)
  stored : ∀ i ∈ S, b.fragments[i]? = some (chunk m.bytes i)
  count : b.receivedCount = S.card

variable {m : Message} {b : ReassemblyBuffer} {S : Finset ℕ} {hdr : FragmentHeader} {now i : ℕ}

theorem start_fresh (htotal : hdr.totalFragments.toNat = m.count) :
    Tracks m (({} : ReassemblyBuffer).start hdr now) ∅ where
  total := htotal
  length := by simp [ReassemblyBuffer.start, resize, htotal]
  received := by simp [ReassemblyBuffer.start, resize, htotal, List.map_const']
  stored i hi := absurd hi (Finset.notMem_empty i)
  count := rfl

theorem Tracks.start_eq (h : Tracks m b S) (hpos : 0 < m.count) : b.start hdr now = b := by
  have hne : ¬b.fragments.isEmpty = true := by
    rw [List.isEmpty_iff_length_eq_zero, h.length]
    exact Nat.ne_of_gt hpos
  rw [ReassemblyBuffer.start, if_neg hne]

theorem Tracks.accept (h : Tracks m b S) {fid : UInt16} (hfid : fid.toNat = i) (hi : i < m.count) :
    ∃ b' out, b.accept fid (chunk m.bytes i) = some (b', out) ∧ Tracks m b' (insert i S) ∧ emitted out = [] := by
  have hseen : b.received[i]? = some (decide (i ∈ S)) := by
    simp [h.received, hi]
  rw [ReassemblyBuffer.accept, hfid, hseen, Option.bind_some]
  by_cases hmem : i ∈ S
  · rw [if_pos (by simpa using hmem), Finset.insert_eq_of_mem hmem]
    exact ⟨b, [], rfl, h, rfl⟩
  · rw [if_neg (by simpa using hmem), if_pos (by rw [h.length]; exact hi)]
    refine ⟨_, _, rfl, ⟨h.total, ?_, ?_, ?_, ?_⟩, rfl⟩
    · rw [List.length_set, h.length]
    · rw [h.received]
      apply List.ext_getElem
      · simp
      · intro j hj hj'
        rw [List.getElem_set]
        by_cases hij : i = j <;> simp [hij, eq_comm]
    · intro j hj
      rw [List.getElem?_set, h.length]
      by_cases hij : i = j
      · simp [hij, hij ▸ hi]
      · rw [if_neg hij]
        exact h.stored j ((Finset.mem_insert.1 hj).resolve_left (Ne.symm hij))
    · rw [Finset.card_insert_of_notMem hmem, h.count]

theorem Tracks.full_iff (h : Tracks m b S) (hS : S ⊆ Finset.range m.count) :
    b.receivedCount = b.totalFragments.toNat ↔ S = Finset.range m.count := by
  rw [h.count, h.total]
  constructor
  · intro hcard
    exact Finset.eq_of_subset_of_card_le hS (by rw [hcard, Finset.card_range])
  · rintro rfl
    exact Finset.card_range m.count

/-- a full buffer is the message -/
theorem Tracks.assemble (h : Tracks m b (Finset.range m.count)) : b.assemble = some m.bytes := by
  have hread : ∀ j ∈ List.range m.count, b.fragments[j]? = some (chunk m.bytes j) := by
    intro j hj
    exact h.stored j (Finset.mem_range.2 (List.mem_range.1 hj))
  have hmapM : ∀ js : List ℕ, (∀ j ∈ js, b.fragments[j]? = some (chunk m.bytes j)) →
      (js.mapM fun j => b.fragments[j]?) = some (js.map (chunk m.bytes)) := by
    intro js
    induction js with
    | nil =>
      intro _
      rfl
    | cons j js ih =>
      intro hjs
      rw [List.mapM_cons, hjs j List.mem_cons_self, ih fun k hk => hjs k (List.mem_cons_of_mem j hk)]
      rfl
  rw [ReassemblyBuffer.assemble, h.total, hmapM _ hread, Option.map_some]
  exact congrArg some (chunks_flatten m.bytes)

/-! ## One packet -/

/-- the reassembler has a buffer with exactly the fragments `S` of the message, or none if there are none -/
def Follows (m : Message) (r : Reassembler) (S : Finset ℕ) : Prop :=
  (S = ∅ ∧ r.map.lookup m.id = none) ∨ (S.Nonempty ∧ ∃ b, r.map.lookup m.id = some b ∧ Tracks m b S)

variable {r : Reassembler}

theorem Follows.start (h : Follows m r S) (hpos : 0 < m.count) (htotal : hdr.totalFragments.toNat = m.count)
    (now : ℕ) :
    Tracks m (((r.map.lookup m.id).getD {}).start hdr now) S := by
  rcases h with ⟨rfl, hnone⟩ | ⟨-, b, hsome, htracks⟩
  · rw [hnone]
    exact start_fresh htotal
  · rw [hsome, Option.getD_some, htracks.start_eq hpos]
    exact htracks

/-- **One packet** is one piece for the collector of its message. -/
theorem processFragment_follows (h : Follows m r S) (hS : S ⊆ Finset.range m.count) (hi : i < m.count) (now : ℕ) :
    ∃ r' out, r.processFragment now (packet m.bytes m.id i) = some (r', out) ∧ r'.timeout = r.timeout ∧
      (∀ id, id ≠ m.id → r'.map.lookup id = r.map.lookup id) ∧
      if insert i S = Finset.range m.count then Follows m r' ∅ ∧ emitted out = [(m.id, m.bytes)]
      else Follows m r' (insert i S) ∧ emitted out = [] := by
  obtain ⟨⟨id, fid, total, size⟩, hdecode, hid, hfid, htotal, hdrop⟩ := m.decode_packet hi
  obtain rfl : id = m.id := hid
  have hstart := h.start (Nat.lt_of_le_of_lt (Nat.zero_le i) hi) htotal now
  obtain ⟨b, out, haccept, htracks, hquiet⟩ := hstart.accept hfid hi
  have hsub : insert i S ⊆ Finset.range m.count := Finset.insert_subset (Finset.mem_range.2 hi) hS
  have hother : ∀ id, id ≠ m.id → (r.map.insert m.id b).lookup id = r.map.lookup id :=
    fun id hne => AList.lookup_insert_ne hne
  simp only [Reassembler.processFragment, hdecode, Option.bind_some, hdrop, haccept, htracks.full_iff hsub]
  split_ifs with hfull
  · rw [hfull] at htracks
    rw [htracks.assemble]
    refine ⟨_, _, rfl, rfl, ?_, Or.inl ⟨rfl, AList.lookup_erase ..⟩, ?_⟩
    · intro id hne
      exact (AList.lookup_erase_ne hne).trans (hother id hne)
    · rw [emitted, List.filterMap_append, ← emitted, hquiet]
      rfl
  · exact ⟨_, _, rfl, rfl, hother, Or.inr ⟨Finset.insert_nonempty i S, b, AList.lookup_insert _, htracks⟩, hquiet⟩

/-! ## Whole runs -/

/-- the fragment number, if the event is a packet of this message id -/
def pieceOf (id : UInt32) : Event → Option ℕ
  | .packet _ bytes =>
    (decodeHeader bytes).bind fun hdr => if hdr.messageId = id then some hdr.fragmentId.toNat else none
  | .cleanup _ => none

def pieces (id : UInt32) (evs : List Event) : List ℕ := evs.filterMap (pieceOf id)

/-- the collector of a message after the events -/
def collected (m : Message) (evs : List Event) : Collect.St ℕ := collect (Finset.range m.count) (pieces m.id evs)

/-- every packet delivered is a packet of one of the messages -/
def Only (msgs : List Message) (evs : List Event) : Prop := ∀ p ∈ delivered evs, ∃ m ∈ msgs, p ∈ m.fragments

/-- no cleanup finds a buffer older than the timeout -/
def Timely (timeout : ℤ) (evs : List Event) : Prop :=
  ∀ k now, evs[k]? = some (.cleanup now) → ∀ r log, run (.new timeout) (evs.take k) = some (r, log) →
    ∀ e ∈ r.map.entries, e.2.elapsed now ≤ timeout

/-- every buffer and every emission is accounted for by the collectors -/
structure Simulates (msgs : List Message) (evs : List Event) (r : Reassembler) (log : List (List Output)) : Prop where
  follows : ∀ m ∈ msgs, Follows m r (collected m evs).held
  emits : ∀ m ∈ msgs, (emissions log).countP (fun e => e.1 = m.id) = (collected m evs).done
  idle : ∀ id, (∀ m ∈ msgs, m.id ≠ id) → r.map.lookup id = none
  sound : ∀ e ∈ emissions log, ∃ m ∈ msgs, e = (m.id, m.bytes)

variable {msgs : List Message} {evs : List Event} {log : List (List Output)}

theorem emissions_snoc (log : List (List Output)) (out : List Output) :
    emissions (log ++ [out]) = emissions log ++ emitted out := by
  simp [emissions]

theorem pieces_snoc (id : UInt32) (evs : List Event) (e : Event) :
    pieces id (evs ++ [e]) = pieces id evs ++ (pieceOf id e).toList := by
  rw [pieces, List.filterMap_append]
  cases h : pieceOf id e <;> simp [pieces, h]

theorem pieceOf_packet (m : Message) (hi : i < m.count) (now : ℕ) (id : UInt32) :
    pieceOf id (.packet now (packet m.bytes m.id i)) = if m.id = id then some i else none := by
  obtain ⟨hdr, hdecode, hid, hfid, -, -⟩ := m.decode_packet hi
  rw [pieceOf, hdecode, Option.bind_some, hid, hfid]

theorem mem_delivered {p : Bytes} : p ∈ delivered evs ↔ ∃ now, .packet now p ∈ evs := by
  rw [delivered, List.mem_filterMap]
  constructor
  · rintro ⟨e, he, heq⟩
    cases e with
    | packet now bytes => exact ⟨now, Option.some.inj heq ▸ he⟩
    | cleanup now => cases heq
  · rintro ⟨now, he⟩
    exact ⟨_, he, rfl⟩

theorem id_inj (hids : (msgs.map Message.id).Nodup) {m m' : Message} (hm : m ∈ msgs) (hm' : m' ∈ msgs)
    (h : m.id = m'.id) : m = m' := List.inj_on_of_nodup_map hids hm hm' h

/-- only its own packets are pieces of a message -/
theorem pieceOf_eq_some (hids : (msgs.map Message.id).Nodup) (honly : Only msgs evs) (hm : m ∈ msgs) {e : Event}
    (he : e ∈ evs) : pieceOf m.id e = some i ↔ i < m.count ∧ ∃ now, e = .packet now (packet m.bytes m.id i) := by
  constructor
  · intro hpiece
    cases e with
    | cleanup now => cases hpiece
    | packet now p =>
      obtain ⟨m', hm', hfrag⟩ := honly p (mem_delivered.2 ⟨now, he⟩)
      obtain ⟨j, hj, rfl⟩ := Message.mem_fragments.1 hfrag
      rw [pieceOf_packet m' hj] at hpiece
      split_ifs at hpiece with hid
      obtain rfl := id_inj hids hm' hm hid
      obtain rfl := Option.some.inj hpiece
      exact ⟨hj, now, rfl⟩
  · rintro ⟨hi, now, rfl⟩
    rw [pieceOf_packet m hi, if_pos rfl]

/-- the pieces of a message are the packets of it that were delivered -/
theorem mem_pieces (hids : (msgs.map Message.id).Nodup) (honly : Only msgs evs) (hm : m ∈ msgs) :
    i ∈ pieces m.id evs ↔ i < m.count ∧ packet m.bytes m.id i ∈ delivered evs := by
  rw [pieces, List.mem_filterMap]
  constructor
  · rintro ⟨e, he, hpiece⟩
    obtain ⟨hi, now, rfl⟩ := (pieceOf_eq_some hids honly hm he).1 hpiece
    exact ⟨hi, mem_delivered.2 ⟨now, he⟩⟩
  · rintro ⟨hi, hdel⟩
    obtain ⟨now, he⟩ := mem_delivered.1 hdel
    exact ⟨_, he, (pieceOf_eq_some hids honly hm he).2 ⟨hi, now, rfl⟩⟩

theorem pieces_target (hids : (msgs.map Message.id).Nodup) (honly : Only msgs evs) (hm : m ∈ msgs) :
    ∀ i ∈ pieces m.id evs, i ∈ Finset.range m.count :=
  fun _ hi => Finset.mem_range.2 ((mem_pieces hids honly hm).1 hi).1

theorem Only.of_append {evs' : List Event} (h : Only msgs (evs ++ evs')) : Only msgs evs := by
  intro p hp
  apply h p
  rw [delivered, List.filterMap_append]
  exact List.mem_append_left _ hp

theorem Timely.of_snoc {timeout : ℤ} {e : Event} (h : Timely timeout (evs ++ [e])) : Timely timeout evs := by
  intro k now hk r log hrun
  obtain ⟨hlt, -⟩ := List.getElem?_eq_some_iff.1 hk
  apply h k now _ r log
  · rwa [List.take_append_of_le_length (Nat.le_of_lt hlt)]
  · rwa [List.getElem?_append_left hlt]

/-- a packet: its message's collector moves, the others stay -/
theorem Simulates.packet (hids : (msgs.map Message.id).Nodup) (honly : Only msgs evs) (h : Simulates msgs evs r log)
    (hm : m ∈ msgs) (hi : i < m.count) (now : ℕ) :
    ∃ r' out, step r (.packet now (packet m.bytes m.id i)) = some (r', out) ∧ r'.timeout = r.timeout ∧
      Simulates msgs (evs ++ [.packet now (packet m.bytes m.id i)]) r' (log ++ [out]) := by
  have hheld := held_subset (pieces_target hids honly hm)
  obtain ⟨r', out, hprocess, htimeout, hother, hcase⟩ := processFragment_follows (h.follows m hm) hheld hi now
  refine ⟨r', out, hprocess, htimeout, ?_⟩
  have hself : collected m (evs ++ [.packet now (Arista.packet m.bytes m.id i)]) =
      Collect.step (Finset.range m.count) (collected m evs) i := by
    rw [collected, pieces_snoc, pieceOf_packet m hi, if_pos rfl]
    exact collect_snoc _ i
  have hsame : ∀ m' ∈ msgs, m' ≠ m →
      collected m' (evs ++ [.packet now (Arista.packet m.bytes m.id i)]) = collected m' evs := by
    intro m' hm' hne
    have hid : m.id ≠ m'.id := fun heq => hne (id_inj hids hm' hm heq.symm)
    rw [collected, pieces_snoc, pieceOf_packet m hi, if_neg hid, Option.toList_none, List.append_nil]
    rfl
  have hout : emitted out =
      if insert i (collected m evs).held = Finset.range m.count then [(m.id, m.bytes)] else [] := by
    split_ifs at hcase with hfull
    · rw [hcase.2, if_pos hfull]
    · rw [hcase.2, if_neg hfull]
  refine ⟨?_, ?_, ?_, ?_⟩
  · intro m' hm'
    by_cases heq : m' = m
    · rw [heq, hself, Collect.step]
      split_ifs at hcase with hfull
      · rw [if_pos hfull]
        exact hcase.1
      · rw [if_neg hfull]
        exact hcase.1
    · have hid : m'.id ≠ m.id := fun hid => heq (id_inj hids hm' hm hid)
      rw [hsame m' hm' heq, Follows, hother m'.id hid]
      exact h.follows m' hm'
  · intro m' hm'
    rw [emissions_snoc, List.countP_append, h.emits m' hm', hout]
    by_cases heq : m' = m
    · rw [heq, hself, Collect.step]
      split_ifs <;> simp
    · have hid : m.id ≠ m'.id := fun hid => heq (id_inj hids hm' hm hid.symm)
      rw [hsame m' hm' heq]
      split_ifs <;> simp [hid]
  · intro id hid
    rw [hother id (Ne.symm (hid m hm))]
    exact h.idle id hid
  · intro e he
    rw [emissions_snoc, List.mem_append, hout] at he
    rcases he with he | he
    · exact h.sound e he
    · split_ifs at he
      · exact ⟨m, hm, List.mem_singleton.1 he⟩
      · cases he

/-- a cleanup with nothing expired changes nothing -/
theorem cleanupExpired_idle (h : ∀ e ∈ r.map.entries, e.2.elapsed now ≤ r.timeout) :
    r.cleanupExpired now = (r, []) := by
  have hnone : ∀ e ∈ r.map.entries, r.expired now e.2 = false := by
    intro e he
    simpa [Reassembler.expired] using h e he
  have hkeep : (r.map.entries.filter fun e => !r.expired now e.2) = r.map.entries := by
    rw [List.filter_eq_self]
    intro e he
    rw [hnone e he]
    rfl
  have hdrop : (r.map.entries.filter fun e => r.expired now e.2) = [] := by
    rw [List.filter_eq_nil_iff]
    intro e he
    rw [hnone e he]
    exact Bool.false_ne_true
  simp only [Reassembler.cleanupExpired, hkeep, hdrop, List.map_nil]

theorem Simulates.cleanup (h : Simulates msgs evs r log) (now : ℕ) :
    Simulates msgs (evs ++ [.cleanup now]) r (log ++ [[]]) := by
  have hsame : ∀ m, collected m (evs ++ [.cleanup now]) = collected m evs := by
    intro m
    rw [collected, pieces_snoc, pieceOf, Option.toList_none, List.append_nil]
    rfl
  have hlog : emissions (log ++ [[]]) = emissions log := by
    rw [emissions_snoc]
    exact List.append_nil _
  refine ⟨?_, ?_, h.idle, ?_⟩
  · intro m hm
    rw [hsame]
    exact h.follows m hm
  · intro m hm
    rw [hlog, hsame]
    exact h.emits m hm
  · rw [hlog]
    exact h.sound

/-- **Runs.** Packets of the messages in any order and any number of times, and cleanups that find nothing expired: no
access is out of range, and the collectors account for everything. -/
theorem run_simulates (timeout : ℤ) (hids : (msgs.map Message.id).Nodup) (honly : Only msgs evs)
    (htimely : Timely timeout evs) :
    ∃ r log, run (.new timeout) evs = some (r, log) ∧ r.timeout = timeout ∧ Simulates msgs evs r log := by
  induction evs using List.reverseRecOn with
  | nil =>
    refine ⟨_, _, rfl, rfl, ?_, ?_, ?_, ?_⟩
    · intro m _
      exact Or.inl ⟨rfl, AList.lookup_empty _⟩
    · intro m _
      rfl
    · intro id _
      exact AList.lookup_empty id
    · intro e he
      cases he
  | append_singleton evs e ih =>
    obtain ⟨r, log, hrun, htimeout, hsim⟩ := ih honly.of_append htimely.of_snoc
    cases e with
    | packet now p =>
      obtain ⟨m, hm, hfrag⟩ := honly p (mem_delivered.2 ⟨now, by simp⟩)
      obtain ⟨i, hi, rfl⟩ := Message.mem_fragments.1 hfrag
      obtain ⟨r', out, hstep, htimeout', hsim'⟩ := hsim.packet hids honly.of_append hm hi now
      exact ⟨r', _, run_snoc hrun hstep, htimeout'.trans htimeout, hsim'⟩
    | cleanup now =>
      have hfresh : ∀ e ∈ r.map.entries, e.2.elapsed now ≤ r.timeout := by
        rw [htimeout]
        apply htimely evs.length now (by simp) r log
        rwa [List.take_left']
        rfl
      have hstep : step r (.cleanup now) = some (r, []) := congrArg some (cleanupExpired_idle hfresh)
      exact ⟨r, _, run_snoc hrun hstep, htimeout, hsim.cleanup now⟩

/-! ## Reassembly undoes fragmentation -/

/-- the packet of an event -/
def Event.bytes? : Event → Option Bytes
  | .packet _ bytes => some bytes
  | .cleanup _ => none

/-- no packet of the message arrives after all of them have arrived -/
def Prompt (m : Message) (evs : List Event) : Prop :=
  ∀ k p, evs[k]?.bind Event.bytes? = some p → p ∈ m.fragments → ∃ q ∈ m.fragments, q ∉ delivered (evs.take k)

/-- all packets of the messages and nothing else, each at least once and none after its message is complete; cleanups
only while no buffer is older than the timeout -/
structure Delivery (timeout : ℤ) (msgs : List Message) (evs : List Event) : Prop where
  only : Only msgs evs
  all : ∀ m ∈ msgs, ∀ p ∈ m.fragments, p ∈ delivered evs
  prompt : ∀ m ∈ msgs, Prompt m evs
  timely : Timely timeout evs

/-- the event is a packet of the message and completes it -/
def Completes (m : Message) (evs : List Event) (k : ℕ) : Prop :=
  (∃ p ∈ m.fragments, evs[k]?.bind Event.bytes? = some p) ∧ ∀ q ∈ m.fragments, q ∈ delivered (evs.take (k + 1))

/-- in terms of pieces: all packets have arrived -/
theorem cover_iff (hids : (msgs.map Message.id).Nodup) (honly : Only msgs evs) (hm : m ∈ msgs) :
    Finset.range m.count ⊆ (pieces m.id evs).toFinset ↔ ∀ q ∈ m.fragments, q ∈ delivered evs := by
  constructor
  · intro hcover q hq
    obtain ⟨i, hi, rfl⟩ := Message.mem_fragments.1 hq
    exact ((mem_pieces hids honly hm).1 (List.mem_toFinset.1 (hcover (Finset.mem_range.2 hi)))).2
  · intro hall i hi
    have hlt := Finset.mem_range.1 hi
    exact List.mem_toFinset.2 ((mem_pieces hids honly hm).2 ⟨hlt, hall _ (Message.mem_fragments.2 ⟨i, hlt, rfl⟩)⟩)

theorem split_at {e : Event} {k : ℕ} (h : evs[k]? = some e) :
    k < evs.length ∧ evs = evs.take k ++ e :: evs.drop (k + 1) ∧ evs.take (k + 1) = evs.take k ++ [e] := by
  obtain ⟨hlt, rfl⟩ := List.getElem?_eq_some_iff.1 h
  refine ⟨hlt, ?_, ?_⟩
  · rw [List.getElem_cons_drop, List.take_append_drop]
  · rw [List.take_append_getElem]

/-- the packets of a message come in time exactly if its pieces do -/
theorem prompt_iff (hids : (msgs.map Message.id).Nodup) (honly : Only msgs evs) (hm : m ∈ msgs) :
    Prompt m evs ↔ Early (Finset.range m.count) (pieces m.id evs) := by
  constructor
  · intro hprompt l i r hsplit hcover
    obtain ⟨l₁, l₂, hevs, rfl, hrest⟩ := List.filterMap_eq_append_iff.1 hsplit
    obtain ⟨l₂', e, l₃, hl₂, hskip, hpiece, -⟩ := List.filterMap_eq_cons_iff.1 hrest
    have heq : evs = (l₁ ++ l₂') ++ e :: l₃ := by
      rw [hevs, hl₂, List.append_assoc]
    have hpre : pieces m.id (l₁ ++ l₂') = pieces m.id l₁ := by
      rw [pieces, List.filterMap_append, List.filterMap_eq_nil_iff.2 hskip, List.append_nil]
      rfl
    have honly' : Only msgs (l₁ ++ l₂') := Only.of_append (heq ▸ honly)
    obtain ⟨hi, now, rfl⟩ := (pieceOf_eq_some hids honly hm (by rw [heq]; simp)).1 hpiece
    have hk : evs[(l₁ ++ l₂').length]?.bind Event.bytes? = some (packet m.bytes m.id i) := by
      rw [heq, List.getElem?_append_right (Nat.le_refl _), Nat.sub_self]
      rfl
    obtain ⟨q, hq, hmiss⟩ := hprompt _ _ hk (Message.mem_fragments.2 ⟨i, hi, rfl⟩)
    rw [heq, List.take_left] at hmiss
    exact hmiss ((cover_iff hids honly' hm).1 (by rw [hpre]; exact hcover) q hq)
  · intro hearly k p hk hp
    obtain ⟨e, he, hbytes⟩ := Option.bind_eq_some_iff.1 hk
    obtain ⟨hlt, hsplit, -⟩ := split_at he
    obtain ⟨i, hi, rfl⟩ := Message.mem_fragments.1 hp
    have hpiece : pieceOf m.id e = some i := by
      cases e with
      | cleanup now => cases hbytes
      | packet now p =>
        obtain rfl := Option.some.inj hbytes
        rw [pieceOf_packet m hi, if_pos rfl]
    have hpieces : pieces m.id evs = pieces m.id (evs.take k) ++ i :: pieces m.id (evs.drop (k + 1)) := by
      conv_lhs => rw [hsplit, pieces, List.filterMap_append, List.filterMap_cons_some hpiece]
      rfl
    have hmiss := hearly _ _ _ hpieces
    rw [cover_iff hids (Only.of_append (hsplit ▸ honly)) hm] at hmiss
    push Not at hmiss
    exact hmiss

theorem Follows.none_iff (h : Follows m r S) : r.map.lookup m.id = none ↔ S = ∅ := by
  rcases h with ⟨rfl, hnone⟩ | ⟨hne, b, hsome, -⟩
  · exact ⟨fun _ => rfl, fun _ => hnone⟩
  · rw [hsome]
    exact ⟨fun h => (Option.some_ne_none b h).elim, fun h => absurd h hne.ne_empty⟩

theorem map_eq_empty (h : ∀ id, r.map.lookup id = none) : r.map = ∅ := by
  apply AList.ext
  rw [AList.empty_entries, List.eq_nil_iff_forall_not_mem]
  intro e he
  have hmem : e.1 ∈ r.map := List.mem_map_of_mem he
  exact AList.lookup_eq_none.1 (h e.1) hmem

/-- the collector of a message whose packets come in time -/
theorem collected_prompt (hids : (msgs.map Message.id).Nodup) (honly : Only msgs evs) (hm : m ∈ msgs)
    (hne : m.bytes ≠ []) (hprompt : Early (Finset.range m.count) (pieces m.id evs)) :
    collected m evs = if Finset.range m.count ⊆ (pieces m.id evs).toFinset then ⟨∅, 1⟩
      else ⟨(pieces m.id evs).toFinset, 0⟩ :=
  collect_early (Finset.nonempty_range_iff.2 (Nat.ne_of_gt (Message.count_pos hne))) (pieces_target hids honly hm)
    hprompt

/-- each message emitted once is all messages, up to order -/
theorem Simulates.perm (hids : (msgs.map Message.id).Nodup) (h : Simulates msgs evs r log)
    (hdone : ∀ m ∈ msgs, (collected m evs).done = 1) :
    (emissions log).Perm (msgs.map fun m => (m.id, m.bytes)) := by
  have hcount : ∀ m ∈ msgs, ((emissions log).map Prod.fst).count m.id = 1 := by
    intro m hm
    rw [List.count, List.countP_map, ← hdone m hm, ← h.emits m hm]
    rfl
  have hnodup : ((emissions log).map Prod.fst).Nodup := by
    rw [List.nodup_iff_count_le_one]
    intro id
    by_cases hid : id ∈ (emissions log).map Prod.fst
    · obtain ⟨e, he, rfl⟩ := List.mem_map.1 hid
      obtain ⟨m, hm, rfl⟩ := h.sound e he
      exact (hcount m hm).le
    · rw [List.count_eq_zero_of_not_mem hid]
      exact Nat.zero_le 1
  have hmsgs : (msgs.map fun m => (m.id, m.bytes)).Nodup := by
    apply List.Nodup.of_map Prod.fst
    rwa [List.map_map]
  rw [List.perm_ext_iff_of_nodup (List.Nodup.of_map Prod.fst hnodup) hmsgs]
  intro e
  constructor
  · intro he
    obtain ⟨m, hm, rfl⟩ := h.sound e he
    exact List.mem_map_of_mem hm
  · intro he
    obtain ⟨m, hm, rfl⟩ := List.mem_map.1 he
    have hmem : m.id ∈ (emissions log).map Prod.fst := List.count_pos_iff.1 (by rw [hcount m hm]; exact Nat.one_pos)
    obtain ⟨e, he, hid⟩ := List.mem_map.1 hmem
    obtain ⟨m', hm', rfl⟩ := h.sound e he
    rwa [id_inj hids hm hm' hid.symm]

/-- one event emits a message exactly if it moves its completion counter -/
theorem emitted_iff (hids : (msgs.map Message.id).Nodup) {r' : Reassembler} {e : Event} {out : List Output}
    (h : Simulates msgs evs r log) (h' : Simulates msgs (evs ++ [e]) r' (log ++ [out])) (hm : m ∈ msgs) :
    (m.id, m.bytes) ∈ emitted out ↔ (collected m evs).done < (collected m (evs ++ [e])).done := by
  have hcount := h'.emits m hm
  rw [emissions_snoc, List.countP_append, h.emits m hm] at hcount
  rw [← hcount, Nat.lt_add_right_iff_pos, List.countP_pos_iff]
  constructor
  · intro hmem
    exact ⟨_, hmem, by simp⟩
  · rintro ⟨e, he, hid⟩
    obtain ⟨m', hm', rfl⟩ := h'.sound e (by rw [emissions_snoc]; exact List.mem_append_right _ he)
    rwa [id_inj hids hm' hm (by simpa using hid)] at he

theorem Timely.take {timeout : ℤ} (h : Timely timeout evs) (k : ℕ) : Timely timeout (evs.take k) := by
  intro j now hj r log hrun
  obtain ⟨hlt, -⟩ := List.getElem?_eq_some_iff.1 hj
  have hjk : j < k := (List.length_take_le k evs).trans_lt' hlt
  rw [List.take_take, Nat.min_eq_left (Nat.le_of_lt hjk)] at hrun
  rw [List.getElem?_take_of_lt hjk] at hj
  exact h j now hj r log hrun

theorem Only.take (h : Only msgs evs) (k : ℕ) : Only msgs (evs.take k) :=
  Only.of_append (List.take_append_drop k evs ▸ h)

/-- the outputs of event `k` are between the collectors before and after it -/
theorem output_at {timeout : ℤ} (hids : (msgs.map Message.id).Nodup) (honly : Only msgs evs)
    (htimely : Timely timeout evs) (hrun : run (.new timeout) evs = some (r, log)) {k : ℕ} {e : Event}
    (he : evs[k]? = some e) :
    ∃ out, log[k]? = some out ∧ ∀ m ∈ msgs, ((m.id, m.bytes) ∈ emitted out ↔
      (collected m (evs.take k)).done < (collected m (evs.take (k + 1))).done) := by
  obtain ⟨hlt, hsplit, hnext⟩ := split_at he
  obtain ⟨r₁, log₁, hrun₁, -, hsim₁⟩ := run_simulates timeout hids (honly.take k) (htimely.take k)
  obtain ⟨r₂, log₂, hrun₂, -, hsim₂⟩ := run_simulates timeout hids (honly.take (k + 1)) (htimely.take (k + 1))
  rw [hnext] at hrun₂ hsim₂ ⊢
  have hlen₁ : log₁.length = k := by
    rw [length_log hrun₁, List.length_take, Nat.min_eq_left (Nat.le_of_lt hlt)]
  -- the run is the run up to `k`, the event, and the rest
  have hstep := hrun₂
  rw [run_append, hrun₁, Option.bind_some, Option.map_eq_some_iff] at hstep
  obtain ⟨⟨r', tail⟩, hstep, heq⟩ := hstep
  obtain ⟨s, hs, htail⟩ := Option.bind_eq_some_iff.1 hstep
  obtain ⟨rfl, rfl⟩ : s.1 = r' ∧ [s.2] = tail := by simpa [run] using htail
  obtain ⟨rfl, rfl⟩ := Prod.mk.inj heq
  refine ⟨s.2, ?_, fun m hm => emitted_iff hids hsim₁ hsim₂ hm⟩
  rw [hsplit, List.append_cons, run_append, hrun₂, Option.bind_some, Option.map_eq_some_iff] at hrun
  obtain ⟨t, -, ht⟩ := hrun
  obtain ⟨-, rfl⟩ := Prod.mk.inj ht
  rw [List.append_assoc, List.getElem?_append_right (Nat.le_of_eq hlen₁), hlen₁, Nat.sub_self]
  rfl

/-- completing a message is what moves its completion counter -/
theorem completes_iff {timeout : ℤ} (hids : (msgs.map Message.id).Nodup) (h : Delivery timeout msgs evs) (hm : m ∈ msgs)
    (hne : m.bytes ≠ []) {k : ℕ} {e : Event} (he : evs[k]? = some e) :
    Completes m evs k ↔ (collected m (evs.take k)).done < (collected m (evs.take (k + 1))).done := by
  have hearly := (prompt_iff hids h.only hm).1 (h.prompt m hm)
  have hdone : ∀ j, (collected m (evs.take j)).done =
      if Finset.range m.count ⊆ (pieces m.id (evs.take j)).toFinset then 1 else 0 := by
    intro j
    rw [collected_prompt hids (h.only.take j) hm hne (hearly.of_prefix ((List.take_prefix j evs).filterMap _))]
    split_ifs <;> rfl
  have hcover : ∀ j, Finset.range m.count ⊆ (pieces m.id (evs.take j)).toFinset ↔
      ∀ q ∈ m.fragments, q ∈ delivered (evs.take j) := fun j => cover_iff hids (h.only.take j) hm
  rw [hdone, hdone, Completes, ← hcover (k + 1)]
  constructor
  · rintro ⟨⟨p, hp, hk⟩, hnow⟩
    have hbefore : ¬Finset.range m.count ⊆ (pieces m.id (evs.take k)).toFinset := by
      rw [hcover]
      obtain ⟨q, hq, hmiss⟩ := h.prompt m hm k p hk hp
      exact fun hall => hmiss (hall q hq)
    rw [if_neg hbefore, if_pos hnow]
    exact Nat.one_pos
  · intro hlt
    have hnow : Finset.range m.count ⊆ (pieces m.id (evs.take (k + 1))).toFinset := by
      by_contra hno
      rw [if_neg hno] at hlt
      exact Nat.not_lt_zero _ hlt
    refine ⟨?_, hnow⟩
    rw [if_pos hnow] at hlt
    have hbefore : ¬Finset.range m.count ⊆ (pieces m.id (evs.take k)).toFinset := by
      intro hyes
      rw [if_pos hyes] at hlt
      exact Nat.lt_irrefl 1 hlt
    -- an event that is not a packet of `m` would leave its pieces alone
    obtain ⟨hlen, -, hnext⟩ := split_at he
    rw [hnext, pieces_snoc] at hnow
    cases hpiece : pieceOf m.id e with
    | none =>
      rw [hpiece, Option.toList_none, List.append_nil] at hnow
      exact absurd hnow hbefore
    | some i =>
      obtain ⟨hi, now, rfl⟩ := (pieceOf_eq_some hids h.only hm (List.mem_of_getElem? he)).1 hpiece
      exact ⟨_, Message.mem_fragments.2 ⟨i, hi, rfl⟩, by rw [he]; rfl⟩

/-- **Reassembly undoes fragmentation**, whatever the order, interleaving and repetition: every message is emitted once,
byte for byte, nothing else is emitted, no buffer is left, and a message comes out with the packet that completes it. -/
theorem reassembly_correct (timeout : ℤ) (msgs : List Message) (evs : List Event) (hids : (msgs.map Message.id).Nodup)
    (hne : ∀ m ∈ msgs, m.bytes ≠ []) (h : Delivery timeout msgs evs) :
    ∃ r log, run (.new timeout) evs = some (r, log) ∧ r.map = ∅ ∧
      (emissions log).Perm (msgs.map fun m => (m.id, m.bytes)) ∧
      ∀ k < evs.length, ∃ out, log[k]? = some out ∧
        ∀ m ∈ msgs, (m.id, m.bytes) ∈ emitted out ↔ Completes m evs k := by
  obtain ⟨r, log, hrun, -, hsim⟩ := run_simulates timeout hids h.only h.timely
  have hearly : ∀ m ∈ msgs, Early (Finset.range m.count) (pieces m.id evs) :=
    fun m hm => (prompt_iff hids h.only hm).1 (h.prompt m hm)
  have hfinal : ∀ m ∈ msgs, collected m evs = ⟨∅, 1⟩ := by
    intro m hm
    rw [collected_prompt hids h.only hm (hne m hm) (hearly m hm), if_pos ((cover_iff hids h.only hm).2 (h.all m hm))]
  refine ⟨r, log, hrun, ?_, hsim.perm hids fun m hm => by rw [hfinal m hm], ?_⟩
  · apply map_eq_empty
    intro id
    by_cases hid : ∃ m ∈ msgs, m.id = id
    · obtain ⟨m, hm, rfl⟩ := hid
      exact (hsim.follows m hm).none_iff.2 (by rw [hfinal m hm])
    · push Not at hid
      exact hsim.idle id hid
  · intro k hk
    have he : evs[k]? = some evs[k] := List.getElem?_eq_getElem hk
    obtain ⟨out, hout, hiff⟩ := output_at hids h.only h.timely hrun he
    exact ⟨out, hout, fun m hm => (hiff m hm).trans (completes_iff hids h hm (hne m hm) he).symm⟩

/-- the message of `main`, three fragments, sent as id 1 and as id 2 -/
def demo (id : UInt32) : Message :=
  ⟨id, [70, 114, 97, 103, 109, 101, 110, 116, 97, 116, 105, 111, 110, 68,
    101, 109, 111, 69, 120, 97, 109, 112, 108, 101], by decide⟩

/-- id 1 in order, id 2 in reverse, interleaved, with a repeated packet and a cleanup after one second -/
def demoEvents : List Event :=
  [.packet 0 (packet (demo 1).bytes 1 0), .packet 5 (packet (demo 2).bytes 2 2), .cleanup 1000000000,
    .packet 1000000000 (packet (demo 1).bytes 1 0), .packet 1000000001 (packet (demo 1).bytes 1 1),
    .packet 1000000002 (packet (demo 2).bytes 2 1), .packet 1000000003 (packet (demo 1).bytes 1 2),
    .packet 1000000004 (packet (demo 2).bytes 2 0)]

theorem demo_delivery : Delivery 3 [demo 1, demo 2] demoEvents := by
  have hprompt : ∀ m ∈ [demo 1, demo 2], ∀ k < 8, ∀ p ∈ (demoEvents[k]?.bind Event.bytes?).toList, p ∈ m.fragments →
      ∃ q ∈ m.fragments, q ∉ delivered (demoEvents.take k) := by decide
  have htimely : ∀ s ∈ (run (.new 3) (demoEvents.take 2)).toList, ∀ e ∈ s.1.map.entries,
      e.2.elapsed 1000000000 ≤ 3 := by decide
  have hlen : ∀ {k : ℕ} {e : Event}, demoEvents[k]? = some e → k < 8 :=
    fun h => (List.getElem?_eq_some_iff.1 h).1
  refine ⟨?_, by decide, ?_, ?_⟩
  · have honly : ∀ p ∈ delivered demoEvents, ∃ m ∈ [demo 1, demo 2], p ∈ m.fragments := by decide
    exact honly
  · intro m hm k p hk
    obtain ⟨e, he, -⟩ := Option.bind_eq_some_iff.1 hk
    exact hprompt m hm k (hlen he) p (by rw [hk]; exact List.mem_singleton_self p)
  · intro k now hk r log hrun
    have hcleanup : ∀ j < 8, j ≠ 2 → (demoEvents[j]?.bind Event.bytes?).isSome = true := by decide
    obtain rfl : k = 2 := by
      by_contra hne
      have hsome := hcleanup k (hlen hk) hne
      rw [hk] at hsome
      exact absurd hsome Bool.false_ne_true
    obtain rfl : 1000000000 = now := Event.cleanup.inj (Option.some.inj hk)
    exact htimely (r, log) (by rw [hrun]; exact List.mem_singleton_self _)

theorem reassembly_correct_demo :
    ∃ r log, run (.new 3) demoEvents = some (r, log) ∧ r.map = ∅ ∧
      (emissions log).Perm [(1, (demo 1).bytes), (2, (demo 2).bytes)] := by
  obtain ⟨r, log, hrun, hempty, hperm, -⟩ :=
    reassembly_correct 3 [demo 1, demo 2] demoEvents (by decide) (by decide) demo_delivery
  exact ⟨r, log, hrun, hempty, hperm⟩

/-! ## Duplicates after completion -/

/-- packets only, with the time each is processed -/
def deliveries (ds : List (ℕ × Bytes)) : List Event := ds.map fun d => .packet d.1 d.2

/-- at every point of the run the message has been emitted at most once, and then there is no buffer for it -/
def Tolerates (timeout : ℤ) (evs : List Event) (id : UInt32) : Prop :=
  ∀ pre, pre <+: evs → ∃ r log, run (.new timeout) pre = some (r, log) ∧
    (emissions log).countP (fun e => e.1 = id) ≤ 1 ∧
    (0 < (emissions log).countP (fun e => e.1 = id) → r.map.lookup id = none)

theorem delivered_deliveries (ds : List (ℕ × Bytes)) : delivered (deliveries ds) = ds.map Prod.snd := by
  induction ds with
  | nil => rfl
  | cons d ds ih => exact congrArg (d.2 :: ·) ih

theorem timely_deliveries (timeout : ℤ) (ds : List (ℕ × Bytes)) : Timely timeout (deliveries ds) := by
  intro k now hk
  have hmem := List.mem_of_getElem? hk
  obtain ⟨d, -, hd⟩ := List.mem_map.1 hmem
  cases hd

/-- along packets only, the run and the collector agree on what tolerance means -/
theorem tolerates_iff_once {timeout : ℤ} (hids : (msgs.map Message.id).Nodup) (honly : Only msgs evs)
    (htimely : Timely timeout evs) (hm : m ∈ msgs) :
    Tolerates timeout evs m.id ↔ Once (Finset.range m.count) (pieces m.id evs) := by
  -- both sides speak about one prefix of the events at a time
  have hpoint : ∀ k, (∃ r log, run (.new timeout) (evs.take k) = some (r, log) ∧
      (emissions log).countP (fun e => e.1 = m.id) ≤ 1 ∧
      (0 < (emissions log).countP (fun e => e.1 = m.id) → r.map.lookup m.id = none)) ↔
      (collected m (evs.take k)).done ≤ 1 ∧
        (0 < (collected m (evs.take k)).done → (collected m (evs.take k)).held = ∅) := by
    intro k
    obtain ⟨r, log, hrun, -, hsim⟩ := run_simulates timeout hids (honly.take k) (htimely.take k)
    have hiff := (hsim.follows m hm).none_iff
    rw [← hsim.emits m hm, ← hiff]
    constructor
    · rintro ⟨r', log', hrun', hprop⟩
      obtain ⟨rfl, rfl⟩ := Prod.mk.inj (Option.some.inj (hrun.symm.trans hrun'))
      exact hprop
    · intro hprop
      exact ⟨r, log, hrun, hprop⟩
  constructor
  · rintro htol js ⟨post, hsplit⟩
    obtain ⟨l₁, l₂, hevs, rfl, -⟩ := List.filterMap_eq_append_iff.1 hsplit.symm
    have htake : evs.take l₁.length = l₁ := by rw [hevs, List.take_left]
    have hprop := (hpoint l₁.length).1 (htake.symm ▸ htol l₁ ⟨l₂, hevs.symm⟩)
    rwa [htake] at hprop
  · intro honce pre hpre
    rw [List.prefix_iff_eq_take.1 hpre]
    exact (hpoint pre.length).2 (honce _ ((List.take_prefix pre.length evs).filterMap _))

/-- **Exactly the late packets are not tolerated.** For messages of at most 65535 fragments with distinct ids and any
delivery of their packets, in any order and with any repetition: no access is out of range, and a message is emitted at
most once, with no buffer kept for it afterwards, if and only if none of its packets arrives after all of them have. -/
theorem tolerates_iff (timeout : ℤ) (msgs : List Message) (ds : List (ℕ × Bytes)) (hids : (msgs.map Message.id).Nodup)
    (honly : ∀ d ∈ ds, ∃ m ∈ msgs, d.2 ∈ m.fragments) :
    (∃ r log, run (.new timeout) (deliveries ds) = some (r, log)) ∧
      ∀ m ∈ msgs, Tolerates timeout (deliveries ds) m.id ↔ Prompt m (deliveries ds) := by
  have hpackets : Only msgs (deliveries ds) := by
    intro p hp
    rw [delivered_deliveries] at hp
    obtain ⟨d, hd, rfl⟩ := List.mem_map.1 hp
    exact honly d hd
  have htimely := timely_deliveries timeout ds
  obtain ⟨r, log, hrun, -, -⟩ := run_simulates timeout hids hpackets htimely
  refine ⟨⟨r, log, hrun⟩, ?_⟩
  intro m hm
  calc Tolerates timeout (deliveries ds) m.id
      ↔ Once (Finset.range m.count) (pieces m.id (deliveries ds)) := tolerates_iff_once hids hpackets htimely hm
    _ ↔ Early (Finset.range m.count) (pieces m.id (deliveries ds)) := once_iff (pieces_target hids hpackets hm)
    _ ↔ Prompt m (deliveries ds) := (prompt_iff hids hpackets hm).symm

/-- main's message in order, the first packet repeated while the message is incomplete -/
theorem tolerates_iff_demo :
    Tolerates 3 (deliveries [(0, packet (demo 1).bytes 1 0), (1, packet (demo 1).bytes 1 0),
      (2, packet (demo 1).bytes 1 1), (3, packet (demo 1).bytes 1 2)]) 1 := by
  set ds := [(0, packet (demo 1).bytes 1 0), (1, packet (demo 1).bytes 1 0), (2, packet (demo 1).bytes 1 1),
    (3, packet (demo 1).bytes 1 2)] with hds
  have honly : ∀ d ∈ ds, ∃ m ∈ [demo 1], d.2 ∈ m.fragments := by decide
  refine ((tolerates_iff 3 [demo 1] ds (by decide) honly).2 (demo 1) (by simp)).2 ?_
  have hprompt : ∀ k < 4, ∃ q ∈ (demo 1).fragments, q ∉ delivered ((deliveries ds).take k) := by decide
  intro k p hk _
  obtain ⟨e, he, -⟩ := Option.bind_eq_some_iff.1 hk
  exact hprompt k (List.getElem?_eq_some_iff.1 he).1

/-- a fragment count that narrows to 0 dimensions an empty buffer -/
theorem processFragment_wrapped (timeout : ℤ) {message : Bytes} (id : UInt32)
    (h : UInt16.ofNat (fragmentCount message) = 0) (now i : ℕ) :
    (Reassembler.new timeout).processFragment now (packet message id i) = none := by
  have hempty : (Reassembler.new timeout).map.lookup id = none := AList.lookup_empty id
  simp only [Reassembler.processFragment, packet, decodeHeader_encodeHeader, Option.bind_some, h, hempty]
  simp [ReassemblyBuffer.start, ReassemblyBuffer.accept, resize]

/-- **Late duplicates.** A message of one fragment is emitted again, a message of two fragments gets a new buffer; and a
message of 65536 fragments, whose header count is 0, is indexed out of range by its first packet. -/
theorem late_duplicates :
    ¬(∀ (timeout : ℤ) (msgs : List (UInt32 × Bytes)) (ds : List (ℕ × Bytes)), (msgs.map Prod.fst).Nodup →
        (∀ d ∈ ds, ∃ m ∈ msgs, d.2 ∈ fragment m.2 m.1) → ∀ m ∈ msgs, Tolerates timeout (deliveries ds) m.1) ∧
      (run (.new 3) (deliveries [(0, packet [7] 1 0), (0, packet [7] 1 0)])).map (fun s => emissions s.2) =
        some [(1, [7]), (1, [7])] ∧
      run (.new 3) (deliveries [(0, packet (List.replicate (65536 * 8) 0) 1 0)]) = none := by
  refine ⟨?_, by decide, ?_⟩
  · intro h
    set message : Bytes := [1, 2, 3, 4, 5, 6, 7, 8, 9] with hmessage
    set ds := [(0, packet message 1 0), (0, packet message 1 1), (0, packet message 1 0)] with hds
    have htol := h 3 [(1, message)] ds (by simp) (by decide) (1, message) (by simp)
    obtain ⟨r, log, hrun, -, hkept⟩ := htol (deliveries ds) (List.prefix_refl _)
    have hrun' : (run (.new 3) (deliveries ds)).map (fun s => (emissions s.2, (s.1.map.lookup 1).isSome)) =
        some ([(1, message)], true) := by decide
    rw [hrun, Option.map_some, Option.some_inj, Prod.mk.injEq] at hrun'
    rw [hrun'.1] at hkept
    have hnone : r.map.lookup 1 = none := hkept (by decide)
    rw [hnone] at hrun'
    exact absurd hrun'.2 Bool.false_ne_true
  · have hcount : fragmentCount (List.replicate (65536 * 8) 0) = 65536 := by
      rw [fragmentCount, List.length_replicate]
      norm_num
    have hzero : UInt16.ofNat (fragmentCount (List.replicate (65536 * 8) 0)) = 0 := by
      rw [hcount]
      rfl
    rw [deliveries, List.map_singleton, run, step, processFragment_wrapped 3 1 hzero, Option.bind_none]

end InterviewPrep.Arista
