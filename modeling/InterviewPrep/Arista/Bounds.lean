/-
Range safety of the reassembler (arista/interview1/packetFragmentation.cpp, `Reassembler::processFragment`).

Packets come from the network and nothing looks at them before `processFragment`, so a run is over arbitrary byte vectors.
In the model a run is `none` as soon as the header copy leaves the packet, or an index leaves `received` or `fragments`.

The index is the `fragment_id` of the packet at hand, but the vectors have the size announced by the packet that opened
the buffer. `Reassembler.Fits` says when a packet goes with what was announced, in the fields alone: it has a whole header,
and its fragment id is below the `total_fragments` its buffer was opened with (its own, if there is no buffer yet).

- `Sized`, `Inv`: every buffer kept in the map has both vectors of the announced size, which is not 0;
- `step_isSome_iff`, `step_inv`: on such a state a step stays in range exactly if the packet fits, and keeps the invariant;
- `run_isSome_iff`: a run stays in range exactly if every packet fits the state it meets.

`unvalidated_packets`: runs that do not. A packet shorter than a header, a packet that announces no fragments, and two
packets of one message that announce different sizes.
-/
import InterviewPrep.Arista.Fragmentation

namespace InterviewPrep.Arista

/-! ## Sized buffers -/

/-- both vectors have the announced size, which is not 0 -/
structure Sized (b : ReassemblyBuffer) : Prop where
  fragments : b.fragments.length = b.totalFragments.toNat
  received : b.received.length = b.totalFragments.toNat
  pos : 0 < b.totalFragments.toNat

variable {b : ReassemblyBuffer} {hdr : FragmentHeader} {r r' : Reassembler} {now : ℕ} {bytes : Bytes}

theorem Sized.start_eq (h : Sized b) : b.start hdr now = b := by
  have hne : ¬b.fragments.isEmpty = true := by
    rw [List.isEmpty_iff_length_eq_zero, h.fragments]
    exact Nat.ne_of_gt h.pos
  rw [ReassemblyBuffer.start, if_neg hne]

theorem sized_start (hpos : 0 < hdr.totalFragments.toNat) : Sized (({} : ReassemblyBuffer).start hdr now) where
  fragments := by simp [ReassemblyBuffer.start, resize]
  received := by simp [ReassemblyBuffer.start, resize]
  pos := by simpa [ReassemblyBuffer.start] using hpos

theorem Sized.accept_isSome_iff (h : Sized b) (fid : UInt16) (payload : Bytes) :
    (b.accept fid payload).isSome ↔ fid.toNat < b.totalFragments.toNat := by
  unfold ReassemblyBuffer.accept
  rcases Nat.lt_or_ge fid.toNat b.totalFragments.toNat with hlt | hge
  · have hread : b.received[fid.toNat]? = some (b.received.get ⟨fid.toNat, h.received.symm ▸ hlt⟩) :=
      List.getElem?_eq_getElem _
    have hstore : fid.toNat < b.fragments.length := h.fragments.symm ▸ hlt
    rw [hread, Option.bind_some]
    split_ifs <;> simp [hlt]
  · rw [List.getElem?_eq_none (h.received.symm ▸ hge)]
    simpa using hge

theorem Sized.accept (h : Sized b) {b' : ReassemblyBuffer} {fid : UInt16} {payload : Bytes} {out : List Output}
    (haccept : b.accept fid payload = some (b', out)) : Sized b' := by
  unfold ReassemblyBuffer.accept at haccept
  obtain ⟨seen, -, hbody⟩ := Option.bind_eq_some_iff.1 haccept
  split_ifs at hbody
  · obtain ⟨rfl, -⟩ := Prod.mk.inj (Option.some.inj hbody)
    exact h
  · obtain ⟨rfl, -⟩ := Prod.mk.inj (Option.some.inj hbody)
    exact ⟨by rw [List.length_set, h.fragments], by rw [List.length_set, h.received], h.pos⟩

/-- `assemble` reads only fragments that are there -/
theorem Sized.assemble (h : Sized b) : b.assemble.isSome := by
  have hreads : ∀ is : List ℕ, (∀ i ∈ is, i < b.fragments.length) → (is.mapM fun i => b.fragments[i]?).isSome := by
    intro is
    induction is with
    | nil =>
      intro _
      rfl
    | cons i is ih =>
      intro his
      obtain ⟨fs, hfs⟩ := Option.isSome_iff_exists.1 (ih fun j hj => his j (List.mem_cons_of_mem i hj))
      rw [List.mapM_cons, List.getElem?_eq_getElem (his i List.mem_cons_self), hfs]
      rfl
  rw [ReassemblyBuffer.assemble, Option.isSome_map]
  apply hreads
  intro i hi
  rw [h.fragments]
  exact List.mem_range.1 hi

/-! ## One event -/

/-- `total_fragments` of the packet that opened the buffer the header goes to -/
def Reassembler.announced (r : Reassembler) (hdr : FragmentHeader) : ℕ :=
  match r.map.lookup hdr.messageId with
  | some b => b.totalFragments.toNat
  | none => hdr.totalFragments.toNat

/-- the packet has a whole header and goes with what its message announced -/
def Reassembler.Fits (r : Reassembler) : Event → Prop
  | .packet _ bytes =>
    headerSize ≤ bytes.length ∧ ∀ hdr, decodeHeader bytes = some hdr → hdr.fragmentId.toNat < r.announced hdr
  | .cleanup _ => True

/-- invariant: the buffers in the map are sized -/
def Reassembler.Inv (r : Reassembler) : Prop := ∀ id b, r.map.lookup id = some b → Sized b

theorem decodeHeader_eq_none (h : bytes.length < headerSize) : decodeHeader bytes = none := by
  rw [decodeHeader, if_pos h]

theorem exists_decodeHeader (h : headerSize ≤ bytes.length) : ∃ hdr, decodeHeader bytes = some hdr := by
  rw [decodeHeader, if_neg (Nat.not_lt.2 h)]
  exact ⟨_, rfl⟩

theorem fits_packet_iff (hlong : headerSize ≤ bytes.length) (hhdr : decodeHeader bytes = some hdr) :
    r.Fits (.packet now bytes) ↔ hdr.fragmentId.toNat < r.announced hdr := by
  simp [Reassembler.Fits, hhdr, hlong]

/-- the buffer a packet is filed in, if the packet announces anything -/
theorem Reassembler.Inv.start (h : r.Inv) (hpos : 0 < r.announced hdr) (now : ℕ) :
    Sized (((r.map.lookup hdr.messageId).getD {}).start hdr now) ∧
      (((r.map.lookup hdr.messageId).getD {}).start hdr now).totalFragments.toNat = r.announced hdr := by
  unfold Reassembler.announced at hpos ⊢
  cases hfind : r.map.lookup hdr.messageId with
  | some b =>
    have hb := h _ b hfind
    rw [Option.getD_some, hb.start_eq]
    exact ⟨hb, rfl⟩
  | none =>
    rw [hfind] at hpos
    exact ⟨sized_start hpos, by simp [ReassemblyBuffer.start]⟩

/-- a packet that announces nothing opens empty vectors -/
theorem Reassembler.Inv.announced_zero (h : r.Inv) (hzero : r.announced hdr = 0) (now : ℕ) :
    (((r.map.lookup hdr.messageId).getD {}).start hdr now).received = [] := by
  unfold Reassembler.announced at hzero
  cases hfind : r.map.lookup hdr.messageId with
  | some b =>
    have hpos := (h _ b hfind).pos
    rw [hfind] at hzero
    exact absurd hzero (Nat.ne_of_gt hpos)
  | none =>
    rw [hfind] at hzero
    simp [ReassemblyBuffer.start, resize, hzero]

theorem packet_isSome_iff (h : r.Inv) :
    (r.processFragment now bytes).isSome ↔ r.Fits (.packet now bytes) := by
  unfold Reassembler.processFragment
  rcases Nat.lt_or_ge bytes.length headerSize with hshort | hlong
  · rw [decodeHeader_eq_none hshort, Option.bind_none]
    simp only [Option.isSome_none, Bool.false_eq_true, false_iff]
    exact fun hfits => absurd hshort (Nat.not_lt.2 hfits.1)
  obtain ⟨hdr, hhdr⟩ := exists_decodeHeader hlong
  rw [fits_packet_iff hlong hhdr, hhdr, Option.bind_some]
  dsimp only
  rcases Nat.eq_zero_or_pos (r.announced hdr) with hzero | hpos
  · -- neither vector has a first element
    rw [ReassemblyBuffer.accept, h.announced_zero hzero now]
    simp [hzero]
  obtain ⟨hsized, htotal⟩ := h.start hpos now
  rw [← htotal, ← hsized.accept_isSome_iff hdr.fragmentId (bytes.drop headerSize)]
  cases haccept : (((r.map.lookup hdr.messageId).getD {}).start hdr now).accept hdr.fragmentId
      (bytes.drop headerSize) with
  | none => rfl
  | some s =>
    obtain ⟨b', out⟩ := s
    obtain ⟨full, hfull⟩ := Option.isSome_iff_exists.1 (hsized.accept haccept).assemble
    rw [Option.bind_some, hfull]
    split_ifs <;> simp

theorem step_isSome_iff (h : r.Inv) (e : Event) : (step r e).isSome ↔ r.Fits e := by
  cases e with
  | packet now bytes => exact packet_isSome_iff h
  | cleanup now => simp [step, Reassembler.Fits]

theorem packet_inv (h : r.Inv) {out : List Output} (hstep : r.processFragment now bytes = some (r', out)) : r'.Inv := by
  have hfits := (packet_isSome_iff h).1 (by rw [hstep]; rfl)
  unfold Reassembler.processFragment at hstep
  obtain ⟨hdr, hhdr, hbody⟩ := Option.bind_eq_some_iff.1 hstep
  obtain ⟨⟨b', out'⟩, haccept, hrest⟩ := Option.bind_eq_some_iff.1 hbody
  have hsized : Sized b' := (h.start (Nat.zero_lt_of_lt (hfits.2 hdr hhdr)) now).1.accept haccept
  intro id b hb
  dsimp only at hrest
  split_ifs at hrest
  · obtain ⟨full, -, heq⟩ := Option.map_eq_some_iff.1 hrest
    obtain ⟨rfl, -⟩ := Prod.mk.inj heq
    rcases eq_or_ne id hdr.messageId with rfl | hid
    · simp at hb
    · rw [AList.lookup_erase_ne hid, AList.lookup_insert_ne hid] at hb
      exact h id b hb
  · obtain ⟨rfl, -⟩ := Prod.mk.inj (Option.some.inj hrest)
    rcases eq_or_ne id hdr.messageId with rfl | hid
    · rw [AList.lookup_insert, Option.some.injEq] at hb
      exact hb ▸ hsized
    · rw [AList.lookup_insert_ne hid] at hb
      exact h id b hb

theorem cleanup_inv (h : r.Inv) (now : ℕ) : (r.cleanupExpired now).1.Inv := by
  intro id b hb
  have hmem := AList.mem_lookup_iff.1 hb
  exact h id b (AList.mem_lookup_iff.2 (List.mem_of_mem_filter hmem))

theorem step_inv (h : r.Inv) {e : Event} {out : List Output} (hstep : step r e = some (r', out)) : r'.Inv := by
  cases e with
  | packet now bytes => exact packet_inv h hstep
  | cleanup now =>
    obtain rfl : (r.cleanupExpired now).1 = r' := congrArg Prod.fst (Option.some.inj hstep)
    exact cleanup_inv h now

/-! ## Runs -/

theorem new_inv (timeout : ℤ) : (Reassembler.new timeout).Inv := by
  intro id b hb
  simp [Reassembler.new] at hb

theorem run_cons_isSome_iff (h : r.Inv) (e : Event) (evs : List Event) :
    (run r (e :: evs)).isSome ↔ r.Fits e ∧ ∀ r' out, step r e = some (r', out) → (run r' evs).isSome := by
  rw [← step_isSome_iff h e, run]
  cases hstep : step r e with
  | none => simp
  | some s =>
    obtain ⟨r₁, out⟩ := s
    simp

/-- from any state with sized buffers, a run stays in range exactly if each event fits the state it meets -/
theorem run_isSome_iff_of_inv (h : r.Inv) (evs : List Event) :
    (run r evs).isSome ↔
      ∀ pre e post, evs = pre ++ e :: post → ∀ r' log, run r pre = some (r', log) → r'.Fits e := by
  induction evs generalizing r with
  | nil => simp [run]
  | cons e₀ evs ih =>
    rw [run_cons_isSome_iff h]
    constructor
    · rintro ⟨hfits, hrest⟩ pre e post hsplit r₂ log hrun
      rcases pre with - | ⟨e₁, pre⟩
      · obtain ⟨rfl, -⟩ := List.cons.inj hsplit
        obtain ⟨rfl, -⟩ : r = r₂ ∧ [] = log := by simpa [run] using hrun
        exact hfits
      · obtain ⟨rfl, htail⟩ := List.cons.inj hsplit
        obtain ⟨⟨r₁, out⟩, hstep, hmap⟩ := Option.bind_eq_some_iff.1 hrun
        obtain ⟨⟨r₂', log'⟩, hrun', heq⟩ := Option.map_eq_some_iff.1 hmap
        obtain ⟨rfl, -⟩ := Prod.mk.inj heq
        exact (ih (step_inv h hstep)).1 (hrest r₁ out hstep) pre e post htail r₂' log' hrun'
    · intro hall
      refine ⟨hall [] e₀ evs rfl r [] rfl, ?_⟩
      intro r₁ out hstep
      rw [ih (step_inv h hstep)]
      intro pre e post hsplit r₂ log hrun
      refine hall (e₀ :: pre) e post (by rw [hsplit, List.cons_append]) r₂ (out :: log) ?_
      simp [run, hstep, hrun]

/-- **Range safety.** For any events, every read of a packet and every index into a buffer is in range exactly if every
packet fits the state it meets: it has a whole header, and its fragment id is below what its message announced. -/
theorem run_isSome_iff (timeout : ℤ) (evs : List Event) :
    (run (.new timeout) evs).isSome ↔
      ∀ pre e post, evs = pre ++ e :: post → ∀ r log, run (.new timeout) pre = some (r, log) → r.Fits e :=
  run_isSome_iff_of_inv (new_inv timeout) evs

/-- **Packets nobody validated.** A packet of 3 bytes, a packet that announces 0 fragments, and fragment 2 of a message
that was announced with 2 fragments before: each leaves the packet or the vectors. -/
theorem unvalidated_packets :
    (run (.new 3) [.packet 0 [1, 0, 0]]).isSome = false ∧
      (run (.new 3) [.packet 0 (encodeHeader ⟨1, 0, 0, 0⟩)]).isSome = false ∧
      (run (.new 3) [.packet 0 (encodeHeader ⟨1, 0, 2, 0⟩), .packet 0 (encodeHeader ⟨1, 2, 3, 0⟩)]).isSome = false := by
  decide

end InterviewPrep.Arista
