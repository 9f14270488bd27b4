/-
Packet fragmentation and reassembly (arista/interview1/packetFragmentation.cpp).

A message is cut into chunks of at most 8 bytes; each packet is a 12-byte header (message id, fragment id, number of
fragments, payload size; the struct copied byte for byte, here little-endian) followed by the chunk. Counts are computed
in `size_t` and narrowed to `uint16_t` in the header.

The reassembler keeps a map from message ids to buffers. The model is partial: `none` is a header copy past the end of a
packet or an index outside `received` or `fragments`.
- `processFragment`: a buffer is created on first use and dimensioned by the first header, a fragment already received is
  ignored, a full buffer is assembled and erased;
- `cleanupExpired`: erases the buffers whose age in whole seconds exceeds the timeout. `now` is the clock in nanoseconds.

Outputs are what is written to `cout`; `reassembled` carries the id `assemble` was called with, which is not printed.

`Event` is a packet or a cleanup at some time, `run` feeds events to a reassembler and logs the outputs of each.

Results: `decodeHeader_encodeHeader` and `chunks_flatten`, the two halves of the wire format's round trip. `Message` is a
message whose fragment count fits into 16 bits; `decode_packet` reads its packets back. `fragment_labelled_iff`: the
headers of a message say what they should exactly for such messages.
-/
import Mathlib.Data.List.AList
import Mathlib.Tactic

namespace InterviewPrep.Arista

abbrev Bytes := List UInt8

/-! ## Wire format -/

/-- the low `k` bytes of `n`, least significant first -/
def toLe : ℕ → ℕ → Bytes
  | 0, _ => []
  | k + 1, n => UInt8.ofNat n :: toLe k (n / 256)

def ofLe : Bytes → ℕ
  | [] => 0
  | b :: bs => b.toNat + 256 * ofLe bs

structure FragmentHeader where
  messageId : UInt32
  fragmentId : UInt16
  totalFragments : UInt16
  payloadSize : UInt32
  deriving DecidableEq

/-- `sizeof(FragmentHeader)` -/
abbrev headerSize : ℕ := 12

def encodeHeader (hdr : FragmentHeader) : Bytes :=
  toLe 4 hdr.messageId.toNat ++ (toLe 2 hdr.fragmentId.toNat ++ (toLe 2 hdr.totalFragments.toNat ++
    toLe 4 hdr.payloadSize.toNat))

/-- `memcpy(&hdr, packet.data(), sizeof(hdr))` -/
def decodeHeader (packet : Bytes) : Option FragmentHeader :=
  if packet.length < headerSize then none
  else some {
    messageId := UInt32.ofNat (ofLe (packet.take 4))
    fragmentId := UInt16.ofNat (ofLe ((packet.drop 4).take 2))
    totalFragments := UInt16.ofNat (ofLe ((packet.drop 6).take 2))
    payloadSize := UInt32.ofNat (ofLe ((packet.drop 8).take 4)) }

@[simp] theorem length_toLe (k n : ℕ) : (toLe k n).length = k := by
  induction k generalizing n with
  | zero => rfl
  | succ k ih => simp [toLe, ih]

theorem ofLe_toLe (k n : ℕ) : ofLe (toLe k n) = n % 256 ^ k := by
  induction k generalizing n with
  | zero => simp [toLe, ofLe, Nat.mod_one]
  | succ k ih =>
    have hbyte : (UInt8.ofNat n).toNat = n % 256 := UInt8.toNat_ofNat'
    rw [toLe, ofLe, ih, hbyte, Nat.pow_succ', Nat.mod_mul]

theorem length_encodeHeader (hdr : FragmentHeader) : (encodeHeader hdr).length = headerSize := by
  simp [encodeHeader]

theorem u32_roundtrip (x : UInt32) : UInt32.ofNat (ofLe (toLe 4 x.toNat)) = x := by
  have hlt : x.toNat < 256 ^ 4 := x.toNat_lt
  rw [ofLe_toLe, Nat.mod_eq_of_lt hlt, UInt32.ofNat_toNat]

theorem u16_roundtrip (x : UInt16) : UInt16.ofNat (ofLe (toLe 2 x.toNat)) = x := by
  have hlt : x.toNat < 256 ^ 2 := x.toNat_lt
  rw [ofLe_toLe, Nat.mod_eq_of_lt hlt, UInt16.ofNat_toNat]

/-- **The header survives the wire.** -/
theorem decodeHeader_encodeHeader (hdr : FragmentHeader) (payload : Bytes) :
    decodeHeader (encodeHeader hdr ++ payload) = some hdr := by
  have hlen := length_encodeHeader hdr
  rw [decodeHeader, if_neg (by rw [List.length_append, hlen]; omega)]
  have hfield : ∀ (k : ℕ) (n m : ℕ), k ≤ m → (toLe k n).drop m = [] := by
    intro k n m hkm
    exact List.drop_eq_nil_of_le (by rwa [length_toLe])
  simp [encodeHeader, List.drop_append, u32_roundtrip, u16_roundtrip, hfield]

theorem drop_encodeHeader (hdr : FragmentHeader) (payload : Bytes) :
    (encodeHeader hdr ++ payload).drop headerSize = payload := by
  rw [← length_encodeHeader hdr, List.drop_left]

/-! ## Fragmenter -/

abbrev maxPayload : ℕ := 8

/-- number of fragments, before it is narrowed -/
def fragmentCount (message : Bytes) : ℕ := (message.length + maxPayload - 1) / maxPayload

/-- payload of fragment `i` -/
def chunk (message : Bytes) (i : ℕ) : Bytes :=
  (message.drop (i * maxPayload)).take (min maxPayload (message.length - i * maxPayload))

def packet (message : Bytes) (messageId : UInt32) (i : ℕ) : Bytes :=
  encodeHeader ⟨messageId, UInt16.ofNat i, UInt16.ofNat (fragmentCount message),
    UInt32.ofNat (min maxPayload (message.length - i * maxPayload))⟩ ++ chunk message i

def fragment (message : Bytes) (messageId : UInt32) : List Bytes :=
  (List.range (fragmentCount message)).map (packet message messageId)

theorem chunk_eq (message : Bytes) (i : ℕ) : chunk message i = (message.drop (maxPayload * i)).take maxPayload := by
  rw [chunk, Nat.mul_comm i, List.take_eq_take_iff, List.length_drop]
  omega

/-- **The chunks make up the message.** -/
theorem chunks_flatten (message : Bytes) :
    ((List.range (fragmentCount message)).map (chunk message)).flatten = message := by
  have htake : ∀ n, ((List.range n).map (chunk message)).flatten = message.take (maxPayload * n) := by
    intro n
    induction n with
    | zero => simp
    | succ n ih =>
      rw [List.range_succ, List.map_append, List.flatten_append, ih, List.map_singleton, List.flatten_singleton,
        chunk_eq, Nat.mul_succ, List.take_add]
  rw [htake, List.take_of_length_le]
  simp only [fragmentCount, maxPayload]
  omega

/-! ## Reassembler -/

structure ReassemblyBuffer where
  totalFragments : UInt16 := 0
  fragments : List Bytes := []
  received : List Bool := []
  receivedCount : ℕ := 0
  firstReceiveTime : ℕ := 0

/-- `reassembly_map_` and `timeout_seconds_` -/
structure Reassembler where
  map : AList fun _ : UInt32 => ReassemblyBuffer
  timeout : ℤ

inductive Output where
  | received (fragmentId : UInt16)
  | reassembled (messageId : UInt32) (full : Bytes)
  | discarded (messageId : UInt32)
  deriving DecidableEq

def Reassembler.new (timeout : ℤ) : Reassembler := ⟨∅, timeout⟩

/-- `std::vector::resize` -/
def resize {α : Type} (xs : List α) (n : ℕ) (v : α) : List α := xs.take n ++ List.replicate (n - xs.length) v

namespace ReassemblyBuffer

/-- the buffer is dimensioned by the first header it sees -/
def start (b : ReassemblyBuffer) (hdr : FragmentHeader) (now : ℕ) : ReassemblyBuffer :=
  if b.fragments.isEmpty then {
    totalFragments := hdr.totalFragments
    fragments := resize b.fragments hdr.totalFragments.toNat []
    received := resize b.received hdr.totalFragments.toNat false
    receivedCount := 0
    firstReceiveTime := now }
  else b

/-- the fragment is stored unless it is there already -/
def accept (b : ReassemblyBuffer) (fragmentId : UInt16) (payload : Bytes) : Option (ReassemblyBuffer × List Output) :=
  b.received[fragmentId.toNat]?.bind fun seen =>
    if seen then some (b, [])
    else if fragmentId.toNat < b.fragments.length then
      some ({ b with
        fragments := b.fragments.set fragmentId.toNat payload
        received := b.received.set fragmentId.toNat true
        receivedCount := b.receivedCount + 1 }, [.received fragmentId])
    else none

/-- the fragments in order -/
def assemble (b : ReassemblyBuffer) : Option Bytes :=
  ((List.range b.totalFragments.toNat).mapM fun i => b.fragments[i]?).map List.flatten

/-- `duration_cast<seconds>(now - first_receive_time)` -/
def elapsed (b : ReassemblyBuffer) (now : ℕ) : ℤ := ((now : ℤ) - b.firstReceiveTime).tdiv 1000000000

end ReassemblyBuffer

namespace Reassembler

def processFragment (r : Reassembler) (now : ℕ) (packet : Bytes) : Option (Reassembler × List Output) :=
  (decodeHeader packet).bind fun hdr =>
    let buffer := ((r.map.lookup hdr.messageId).getD {}).start hdr now
    (buffer.accept hdr.fragmentId (packet.drop headerSize)).bind fun (buffer, out) =>
      if buffer.receivedCount = buffer.totalFragments.toNat then
        buffer.assemble.map fun full =>
          ({ r with map := (r.map.insert hdr.messageId buffer).erase hdr.messageId },
            out ++ [.reassembled hdr.messageId full])
      else some ({ r with map := r.map.insert hdr.messageId buffer }, out)

def expired (r : Reassembler) (now : ℕ) (b : ReassemblyBuffer) : Bool := r.timeout < b.elapsed now

def cleanupExpired (r : Reassembler) (now : ℕ) : Reassembler × List Output :=
  ({ r with map := ⟨r.map.entries.filter fun e => !r.expired now e.2,
      List.NodupKeys.sublist List.filter_sublist r.map.nodupKeys⟩ },
    (r.map.entries.filter fun e => r.expired now e.2).map fun e => .discarded e.1)

end Reassembler

/-! ## Events -/

inductive Event where
  | packet (now : ℕ) (bytes : Bytes)
  | cleanup (now : ℕ)

def step (r : Reassembler) : Event → Option (Reassembler × List Output)
  | .packet now bytes => r.processFragment now bytes
  | .cleanup now => some (r.cleanupExpired now)

def run : Reassembler → List Event → Option (Reassembler × List (List Output))
  | r, [] => some (r, [])
  | r, e :: evs => (step r e).bind fun (r, out) => (run r evs).map fun (r, log) => (r, out :: log)

theorem run_append (r : Reassembler) (evs evs' : List Event) :
    run r (evs ++ evs') = (run r evs).bind fun s => (run s.1 evs').map fun t => (t.1, s.2 ++ t.2) := by
  induction evs generalizing r with
  | nil => simp [run]
  | cons e evs ih =>
    rw [List.cons_append, run, run, Option.bind_assoc]
    congr 1
    funext ⟨r, out⟩
    simp only [ih, Option.bind_map, Option.map_bind]
    congr 1
    funext s
    simp only [Function.comp_apply, Option.map_map, List.cons_append]
    rfl

theorem run_snoc {r r₁ r₂ : Reassembler} {evs : List Event} {e : Event} {log : List (List Output)} {out : List Output}
    (hrun : run r evs = some (r₁, log)) (hstep : step r₁ e = some (r₂, out)) :
    run r (evs ++ [e]) = some (r₂, log ++ [out]) := by
  rw [run_append, hrun]
  simp [run, hstep]

theorem length_log {r r' : Reassembler} {evs : List Event} {log : List (List Output)}
    (h : run r evs = some (r', log)) : log.length = evs.length := by
  induction evs generalizing r log with
  | nil =>
    obtain ⟨rfl, rfl⟩ : r = r' ∧ [] = log := by simpa [run] using h
    rfl
  | cons e evs ih =>
    rw [run] at h
    obtain ⟨s, -, hs⟩ := Option.bind_eq_some_iff.1 h
    obtain ⟨t, ht, heq⟩ := Option.map_eq_some_iff.1 hs
    obtain ⟨rfl, rfl⟩ := Prod.mk.inj heq
    rw [List.length_cons, List.length_cons, ih ht]

/-- messages emitted by one event -/
def emitted (out : List Output) : List (UInt32 × Bytes) :=
  out.filterMap fun
    | .reassembled id full => some (id, full)
    | _ => none

def emissions (log : List (List Output)) : List (UInt32 × Bytes) := log.flatMap emitted

/-- packets delivered -/
def delivered (evs : List Event) : List Bytes :=
  evs.filterMap fun
    | .packet _ bytes => some bytes
    | .cleanup _ => none

/-! ## Messages -/

/-- a message whose fragment count fits into the header -/
structure Message where
  id : UInt32
  bytes : Bytes
  bounded : bytes.length ≤ 65535 * maxPayload

namespace Message

def count (m : Message) : ℕ := fragmentCount m.bytes

def fragments (m : Message) : List Bytes := fragment m.bytes m.id

theorem count_lt (m : Message) : m.count < 2 ^ 16 := by
  have hbound := m.bounded
  simp only [count, fragmentCount, maxPayload] at hbound ⊢
  omega

theorem count_pos {m : Message} (h : m.bytes ≠ []) : 0 < m.count := by
  have hlen := List.length_pos_of_ne_nil h
  simp only [count, fragmentCount, maxPayload]
  omega

theorem mem_fragments {m : Message} {p : Bytes} : p ∈ m.fragments ↔ ∃ i < m.count, p = packet m.bytes m.id i := by
  simp only [fragments, fragment, List.mem_map, List.mem_range, count]
  constructor
  · rintro ⟨i, hi, rfl⟩
    exact ⟨i, hi, rfl⟩
  · rintro ⟨i, hi, rfl⟩
    exact ⟨i, hi, rfl⟩

/-- what a reassembler reads off a packet of the message -/
theorem decode_packet (m : Message) {i : ℕ} (hi : i < m.count) :
    ∃ hdr, decodeHeader (packet m.bytes m.id i) = some hdr ∧ hdr.messageId = m.id ∧ hdr.fragmentId.toNat = i ∧
      hdr.totalFragments.toNat = m.count ∧ (packet m.bytes m.id i).drop headerSize = chunk m.bytes i := by
  have hcount := m.count_lt
  refine ⟨_, decodeHeader_encodeHeader .., rfl, ?_, ?_, drop_encodeHeader ..⟩
  · rw [UInt16.toNat_ofNat', Nat.mod_eq_of_lt (hi.trans hcount)]
  · rw [UInt16.toNat_ofNat']
    exact Nat.mod_eq_of_lt hcount

end Message

/-! ## What the headers say -/

/-- header and payload of a packet -/
def parse (packet : Bytes) : Option (FragmentHeader × Bytes) :=
  (decodeHeader packet).map fun hdr => (hdr, packet.drop headerSize)

/-- the packets of a message, taken apart: their fragment ids are 0, 1, ... in this order, every header has the number of
packets and the size of its payload, and the payloads in the order of the ids make up the message -/
structure Labelled (message : Bytes) (messageId : UInt32) (frags : List (FragmentHeader × Bytes)) : Prop where
  ids : frags.map (fun f => f.1.fragmentId.toNat) = List.range frags.length
  messageIds : ∀ f ∈ frags, f.1.messageId = messageId
  totals : ∀ f ∈ frags, f.1.totalFragments.toNat = frags.length
  sizes : ∀ f ∈ frags, f.1.payloadSize.toNat = f.2.length
  payloads : (frags.map Prod.snd).flatten = message

/-- header and payload of fragment `i` as the fragmenter writes them -/
def labelled (message : Bytes) (messageId : UInt32) (i : ℕ) : FragmentHeader × Bytes :=
  (⟨messageId, UInt16.ofNat i, UInt16.ofNat (fragmentCount message),
    UInt32.ofNat (min maxPayload (message.length - i * maxPayload))⟩, chunk message i)

theorem parse_packet (message : Bytes) (messageId : UInt32) (i : ℕ) :
    parse (packet message messageId i) = some (labelled message messageId i) := by
  unfold parse packet
  rw [decodeHeader_encodeHeader, Option.map_some, drop_encodeHeader]
  rfl

/-- every packet parses, to its header and its chunk -/
theorem mapM_parse_fragment (message : Bytes) (messageId : UInt32) :
    (fragment message messageId).mapM parse =
      some ((List.range (fragmentCount message)).map (labelled message messageId)) := by
  unfold fragment
  induction List.range (fragmentCount message) with
  | nil => rfl
  | cons i l ih => simp [parse_packet, ih]

theorem labelled_size (message : Bytes) (messageId : UInt32) (i : ℕ) :
    (labelled message messageId i).1.payloadSize.toNat = (labelled message messageId i).2.length := by
  have hlen : (chunk message i).length = min maxPayload (message.length - i * maxPayload) := by
    simp only [chunk, List.length_take, List.length_drop]
    omega
  have hsmall : min maxPayload (message.length - i * maxPayload) < 2 ^ 32 :=
    lt_of_le_of_lt (min_le_left _ _) (by decide)
  show (UInt32.ofNat _).toNat = (chunk message i).length
  rw [hlen, UInt32.toNat_ofNat', Nat.mod_eq_of_lt hsmall]

theorem labelled_total (message : Bytes) (messageId : UInt32) (i : ℕ) :
    (labelled message messageId i).1.totalFragments.toNat = fragmentCount message % 2 ^ 16 := UInt16.toNat_ofNat'

/-- the headers of at most 65535 packets are right -/
theorem labelled_of_count {message : Bytes} (messageId : UInt32) (hsmall : fragmentCount message < 2 ^ 16) :
    Labelled message messageId ((List.range (fragmentCount message)).map (labelled message messageId)) := by
  have hid : ∀ i ∈ List.range (fragmentCount message), (labelled message messageId i).1.fragmentId.toNat = i := by
    intro i hi
    have hi := List.mem_range.1 hi
    show (UInt16.ofNat i).toNat = i
    rw [UInt16.toNat_ofNat']
    omega
  refine ⟨?_, ?_, ?_, ?_, ?_⟩
  · rw [List.map_map, List.length_map, List.length_range]
    exact (List.map_congr_left hid).trans (List.map_id _)
  · intro f hf
    obtain ⟨i, -, rfl⟩ := List.mem_map.1 hf
    rfl
  · intro f hf
    obtain ⟨i, -, rfl⟩ := List.mem_map.1 hf
    rw [labelled_total, List.length_map, List.length_range, Nat.mod_eq_of_lt hsmall]
  · intro f hf
    obtain ⟨i, -, rfl⟩ := List.mem_map.1 hf
    exact labelled_size message messageId i
  · rw [List.map_map]
    exact chunks_flatten message

/-- if they are right, there are at most 65535: the first header has the count mod 2^16 -/
theorem count_of_labelled {message : Bytes} {messageId : UInt32} {frags : List (FragmentHeader × Bytes)}
    (hparse : (fragment message messageId).mapM parse = some frags) (hl : Labelled message messageId frags) :
    fragmentCount message < 2 ^ 16 := by
  obtain rfl := Option.some.inj ((mapM_parse_fragment message messageId).symm.trans hparse)
  by_contra hbig
  have hfirst := hl.totals (labelled message messageId 0) (List.mem_map_of_mem (List.mem_range.2 (by omega)))
  rw [labelled_total, List.length_map, List.length_range] at hfirst
  have := Nat.mod_lt (fragmentCount message) (show 2 ^ 16 > 0 by decide)
  omega

/-- **When the headers are right.** The packets of a message have the fragment ids 0, 1, ..., the number of packets, the
payload sizes and the payloads they should have exactly when the message has at most 65535 * 8 bytes: the number of
packets is cut to 16 bits. -/
theorem fragment_labelled_iff (message : Bytes) (messageId : UInt32) :
    (∃ frags, (fragment message messageId).mapM parse = some frags ∧ Labelled message messageId frags) ↔
      message.length ≤ 65535 * maxPayload := by
  have hcount : fragmentCount message < 2 ^ 16 ↔ message.length ≤ 65535 * maxPayload := by
    simp only [fragmentCount, maxPayload]
    omega
  rw [← hcount]
  constructor
  · intro h
    obtain ⟨frags, hparse, hl⟩ := h
    exact count_of_labelled hparse hl
  · intro hsmall
    exact ⟨_, mapM_parse_fragment message messageId, labelled_of_count messageId hsmall⟩

/-- a message of 65536 * 8 bytes -/
def longMessage : Bytes := List.replicate (65536 * 8) 7

theorem fragmentCount_longMessage : fragmentCount longMessage = 65536 := by
  have hlength : longMessage.length = 65536 * 8 := List.length_replicate
  rw [fragmentCount, hlength]
  norm_num

/-- **The count wraps.** The packets of a message of 65536 fragments all say that it has none. -/
theorem fragment_count_wraps :
    fragmentCount longMessage = 65536 ∧ (∀ i, (labelled longMessage 1 i).1.totalFragments = 0) ∧
      ¬ ∃ frags, (fragment longMessage 1).mapM parse = some frags ∧ Labelled longMessage 1 frags := by
  refine ⟨fragmentCount_longMessage, fun i => ?_, fun h => ?_⟩
  · apply UInt16.toNat_inj.1
    rw [labelled_total, fragmentCount_longMessage]
    norm_num
  · obtain ⟨frags, hparse, hl⟩ := h
    have := count_of_labelled hparse hl
    rw [fragmentCount_longMessage] at this
    exact absurd this (by decide)

end InterviewPrep.Arista
