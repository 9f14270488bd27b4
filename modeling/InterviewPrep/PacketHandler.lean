/-
The packet receiver of packetHandler/PacketHandler.cpp.

`pcap_callback` gets a frame of which libpcap has captured the first `caplen` bytes of `len`. It copies `len - 14` bytes from
offset 14 on and queues the copy; `processor_loop` takes the copies out and `dispatch_packet` passes each to the handler of
its protocol, at the offset that the header length field gives. A byte that is read outside the memory it is in is a fault
(`none`). `header->len - 14` is `uint32_t` arithmetic, `len - ip_header_len` is `size_t` arithmetic; both wrap.

- `sound_iff`: a frame goes through the callback, the dispatcher and the handler with every read in place and no length that
  wraps exactly if it `Fits`;
- `unsound_frames`: three that do not;
- `run_lines`: if all frames fit, no run of the receiver faults, and the handlers print one line for each of the frames that
  have one, in the order in which they came.
-/
import InterviewPrep.Core.Machine

namespace InterviewPrep.PacketHandler

/-! ## Model -/

/-- a frame of `len` bytes, and those of them that were captured -/
structure Frame where
  captured : List UInt8
  len : UInt32
  caplen_le : captured.length ≤ len.toNat

/-- the entries of `handlers` -/
inductive Handler where
  | tcp
  | udp
  | icmp
  deriving DecidableEq

/-- what a handler prints -/
inductive Line where
  | tcp (source dest : ℕ)
  | udp (source dest : ℕ)
  | icmp (type code : ℕ)
  deriving DecidableEq

/-- what a handler is called with: the offset of `data` in the packet and `len` -/
structure Passed where
  handler : Handler
  offset : ℕ
  len : UInt64
  deriving DecidableEq

/-- `n` bytes are copied -/
def copy : List UInt8 → ℕ → Option (List UInt8)
  | _, 0 => some []
  | [], _ + 1 => none
  | b :: bs, n + 1 => (copy bs n).map (b :: ·)

def Frame.ipLen (f : Frame) : ℕ := (f.len - 14).toNat

/-- the packet that is queued -/
def pcapCallback (f : Frame) : Option (List UInt8) := copy (f.captured.drop 14) f.ipLen

/-- `ntohs` of the two bytes at `offset` -/
def ntohs (data : List UInt8) (offset : ℕ) : Option ℕ := do
  let high ← data[offset]?
  let low ← data[offset + 1]?
  return 256 * high.toNat + low.toNat

/-- the handlers do not look at `len` -/
def handle (p : Passed) (data : List UInt8) : Option Line :=
  match p.handler with
  | .tcp => do return .tcp (← ntohs data p.offset) (← ntohs data (p.offset + 2))
  | .udp => do return .udp (← ntohs data p.offset) (← ntohs data (p.offset + 2))
  | .icmp => do
    let type ← data[p.offset]?
    let code ← data[p.offset + 1]?
    return .icmp type.toNat code.toNat

def handlers (protocol : UInt8) : Option Handler :=
  if protocol = 6 then some .tcp
  else if protocol = 17 then some .udp
  else if protocol = 1 then some .icmp
  else none

/-- `ip_hl`, the lower four bits of the first byte, times 4 -/
def ipHeaderLen (first : UInt8) : ℕ := (first &&& 0x0F).toNat * 4

/-- the handler that is called, if any; 20 is `sizeof(struct ip)`, and `ip_p` is at offset 9 -/
def select (data : List UInt8) : Option (Option Passed) :=
  if data.length < 20 then some none
  else do
    let first ← data[0]?
    let protocol ← data[9]?
    return (handlers protocol).map fun h =>
      ⟨h, ipHeaderLen first, UInt64.ofNat data.length - UInt64.ofNat (ipHeaderLen first)⟩

def dispatchPacket (data : List UInt8) : Option (Option Line) :=
  (select data).bind fun
    | none => some none
    | some p => (handle p data).map some

/-! ### The receiver -/

/-- `packet_queue`, and what has been printed -/
structure Receiver where
  packetQueue : List (List UInt8) := []
  printed : List Line := []

inductive Act where
  | capture (f : Frame)
  | process

/-- `processor_loop` waits while the queue is empty -/
def step (s : Receiver) : Act → Option Receiver
  | .capture f => (pcapCallback f).map fun pkt => { s with packetQueue := s.packetQueue ++ [pkt] }
  | .process =>
    match s.packetQueue with
    | [] => some s
    | pkt :: rest => (dispatchPacket pkt).map fun line => ⟨rest, s.printed ++ line.toList⟩

/-! ## One frame -/

/-- how many bytes a handler reads -/
def Handler.reads : Handler → ℕ
  | .tcp => 4
  | .udp => 4
  | .icmp => 2

/-- all bytes that are copied are captured, all bytes that are read are in the packet, and no length wraps -/
structure Sound (f : Frame) : Prop where
  ipLen : f.ipLen + 14 = f.len.toNat
  copied : ∃ pkt, pcapCallback f = some pkt
  read : ∀ pkt, pcapCallback f = some pkt → ∃ line, dispatchPacket pkt = some line
  passed : ∀ pkt, pcapCallback f = some pkt → ∀ p, select pkt = some (some p) → p.len.toNat + p.offset = pkt.length

/-- the Ethernet header is there, the frame is captured whole unless it ends there, and the header that its length field
announces ends early enough for the handler -/
structure Fits (f : Frame) : Prop where
  ethernet : 14 ≤ f.len.toNat
  whole : f.captured.length = f.len.toNat ∨ f.len.toNat = 14
  header : 34 ≤ f.len.toNat → ∀ h, handlers (f.captured.getD 23 0) = some h →
    14 + ipHeaderLen (f.captured.getD 14 0) + h.reads ≤ f.len.toNat

variable {f : Frame} {s : Receiver} {bs data pkt : List UInt8} {n : ℕ}

theorem copy_eq : copy bs n = if n ≤ bs.length then some (bs.take n) else none := by
  induction bs generalizing n with
  | nil => cases n <;> rfl
  | cons b bs ih =>
    cases n with
    | zero => rfl
    | succ n =>
      rw [copy, ih, List.length_cons, List.take_succ_cons]
      by_cases h : n ≤ bs.length
      · rw [if_pos h, if_pos (Nat.succ_le_succ h), Option.map_some]
      · rw [if_neg h, if_neg (mt Nat.le_of_succ_le_succ h), Option.map_none]

theorem ipLen_of_le (h : 14 ≤ f.len.toNat) : f.ipLen = f.len.toNat - 14 :=
  UInt32.toNat_sub_of_le f.len 14 (UInt32.le_iff_toNat_le.2 h)

/-- two reads, one after the other -/
theorem both_isSome {α β : Type} (x y : Option α) (g : α → α → β) :
    (do return g (← x) (← y)).isSome ↔ x.isSome ∧ y.isSome := by
  cases x <;> cases y <;> simp

theorem ntohs_isSome {offset : ℕ} : (ntohs data offset).isSome ↔ offset + 2 ≤ data.length := by
  unfold ntohs
  rw [both_isSome, isSome_getElem?, isSome_getElem?]
  omega

/-- a handler reads from its offset on -/
theorem handle_isSome {p : Passed} : (handle p data).isSome ↔ p.offset + p.handler.reads ≤ data.length := by
  unfold handle
  cases p.handler with
  | tcp =>
    rw [both_isSome, ntohs_isSome, ntohs_isSome, Handler.reads]
    omega
  | udp =>
    rw [both_isSome, ntohs_isSome, ntohs_isSome, Handler.reads]
    omega
  | icmp =>
    dsimp only
    rw [both_isSome, isSome_getElem?, isSome_getElem?, Handler.reads]
    omega

theorem select_short (h : data.length < 20) : select data = some none := if_pos h

theorem select_long (h : 20 ≤ data.length) :
    select data = some ((handlers (data.getD 9 0)).map fun h =>
      ⟨h, ipHeaderLen (data.getD 0 0), UInt64.ofNat data.length - UInt64.ofNat (ipHeaderLen (data.getD 0 0))⟩) := by
  unfold select
  rw [if_neg (by omega), List.getD_eq_getElem?_getD, List.getD_eq_getElem?_getD,
    List.getElem?_eq_getElem (by omega), List.getElem?_eq_getElem (by omega)]
  rfl

/-- the handler that is called, and with what -/
theorem select_eq_some {p : Passed} (hselect : select data = some (some p)) :
    20 ≤ data.length ∧ handlers (data.getD 9 0) = some p.handler ∧ p.offset = ipHeaderLen (data.getD 0 0) ∧
      p.len = UInt64.ofNat data.length - UInt64.ofNat p.offset := by
  rcases lt_or_ge data.length 20 with hshort | hlong
  · rw [select_short hshort] at hselect
    cases hselect
  · rw [select_long hlong] at hselect
    obtain ⟨h, hh, rfl⟩ := Option.map_eq_some_iff.1 (Option.some.inj hselect)
    exact ⟨hlong, hh, rfl, rfl⟩

/-- the header length field leaves room for what the handler reads -/
def RoomInPacket (data : List UInt8) : Prop :=
  20 ≤ data.length → ∀ h, handlers (data.getD 9 0) = some h → ipHeaderLen (data.getD 0 0) + h.reads ≤ data.length

theorem dispatchPacket_isSome : (dispatchPacket data).isSome ↔ RoomInPacket data := by
  unfold dispatchPacket
  rcases lt_or_ge data.length 20 with hshort | hlong
  · rw [select_short hshort]
    exact iff_of_true rfl fun h => absurd hshort (by omega)
  · rw [select_long hlong, Option.bind_some]
    cases hprotocol : handlers (data.getD 9 0) with
    | none => exact iff_of_true rfl fun _ h hh => by cases hprotocol.symm.trans hh
    | some h =>
      rw [Option.map_some]
      dsimp only
      rw [Option.isSome_map, handle_isSome]
      refine ⟨fun hread _ h' hh' => ?_, fun hroom => hroom hlong h hprotocol⟩
      obtain rfl : h = h' := Option.some.inj (hprotocol.symm.trans hh')
      exact hread

/-- the length that is passed on does not wrap if the header ends in the packet -/
theorem passed_len {p : Passed} (hselect : select data = some (some p)) (hlength : data.length < 2 ^ 64)
    (hoffset : p.offset ≤ data.length) : p.len.toNat + p.offset = data.length := by
  obtain ⟨-, -, -, hlen⟩ := select_eq_some hselect
  have hle : UInt64.ofNat p.offset ≤ UInt64.ofNat data.length := by
    rw [UInt64.le_iff_toNat_le, UInt64.toNat_ofNat_of_lt' hlength, UInt64.toNat_ofNat_of_lt' (hoffset.trans_lt hlength)]
    exact hoffset
  rw [hlen, UInt64.toNat_sub_of_le _ _ hle, UInt64.toNat_ofNat_of_lt' hlength,
    UInt64.toNat_ofNat_of_lt' (hoffset.trans_lt hlength)]
  omega

/-- the copy is the rest of the frame behind the Ethernet header -/
theorem pcapCallback_eq_some (h : 14 ≤ f.len.toNat) :
    pcapCallback f = some pkt ↔
      (f.captured.length = f.len.toNat ∨ f.len.toNat = 14) ∧ pkt = (f.captured.drop 14).take (f.len.toNat - 14) := by
  have hcaplen := f.caplen_le
  rw [pcapCallback, copy_eq, ipLen_of_le h, List.length_drop]
  split_ifs with hfits
  · rw [Option.some_inj, eq_comm, and_iff_right (by omega)]
  · exact iff_of_false (by simp) fun h => hfits (by omega)

theorem getD_copy (h : f.captured.length = f.len.toNat) (k : ℕ) :
    ((f.captured.drop 14).take (f.len.toNat - 14)).getD k 0 = f.captured.getD (14 + k) 0 := by
  rw [List.take_of_length_le (by rw [List.length_drop, h]), List.getD_eq_getElem?_getD, List.getD_eq_getElem?_getD,
    List.getElem?_drop]

theorem length_copy (h : f.captured.length = f.len.toNat ∨ f.len.toNat = 14) :
    ((f.captured.drop 14).take (f.len.toNat - 14)).length = f.len.toNat - 14 := by
  rw [List.length_take, List.length_drop]
  omega

theorem roomInPacket_copy (h : f.captured.length = f.len.toNat ∨ f.len.toNat = 14) :
    RoomInPacket ((f.captured.drop 14).take (f.len.toNat - 14)) ↔
      (34 ≤ f.len.toNat → ∀ h, handlers (f.captured.getD 23 0) = some h →
        14 + ipHeaderLen (f.captured.getD 14 0) + h.reads ≤ f.len.toNat) := by
  unfold RoomInPacket
  rw [length_copy h]
  rcases lt_or_ge f.len.toNat 34 with hshort | hlong
  · exact iff_of_true (fun h => absurd h (by omega)) fun h => absurd h (by omega)
  · have hfirst := getD_copy (f := f) (by omega) 0
    rw [Nat.add_zero] at hfirst
    rw [hfirst, getD_copy (by omega) 9]
    refine ⟨fun hroom _ h hh => ?_, fun hroom _ h hh => ?_⟩
    · have := hroom (by omega) h hh
      omega
    · have := hroom (by omega) h hh
      omega

/-- **One frame.** Every byte that `pcap_callback` copies of a frame has been captured, every byte that the dispatcher and the
handler read of the copy is in it, and neither length wraps, if and only if the frame fits. -/
theorem sound_iff (f : Frame) : Sound f ↔ Fits f := by
  constructor
  · intro h
    have hethernet : 14 ≤ f.len.toNat := h.ipLen ▸ Nat.le_add_left 14 _
    obtain ⟨pkt, hpkt⟩ := h.copied
    obtain ⟨line, hline⟩ := h.read pkt hpkt
    obtain ⟨hwhole, rfl⟩ := (pcapCallback_eq_some hethernet).1 hpkt
    have hroom := dispatchPacket_isSome.1 (Option.isSome_iff_exists.2 ⟨line, hline⟩)
    exact ⟨hethernet, hwhole, (roomInPacket_copy hwhole).1 hroom⟩
  · intro h
    have hroom := (roomInPacket_copy h.whole).2 h.header
    have hlength := length_copy h.whole
    refine ⟨?_, ⟨_, (pcapCallback_eq_some h.ethernet).2 ⟨h.whole, rfl⟩⟩, ?_, ?_⟩
    · have hethernet := h.ethernet
      rw [ipLen_of_le hethernet]
      omega
    · intro pkt hpkt
      obtain ⟨-, rfl⟩ := (pcapCallback_eq_some h.ethernet).1 hpkt
      exact Option.isSome_iff_exists.1 (dispatchPacket_isSome.2 hroom)
    · intro pkt hpkt p hselect
      obtain ⟨-, rfl⟩ := (pcapCallback_eq_some h.ethernet).1 hpkt
      obtain ⟨hlong, hhandler, hoffset, -⟩ := select_eq_some hselect
      have hfits := hroom hlong p.handler hhandler
      have hlen := f.len.toNat_lt
      exact passed_len hselect (by omega) (by omega)

/-- an Ethernet header is captured of a longer frame -/
def truncated : Frame := ⟨List.replicate 14 0, 60, by decide⟩

/-- shorter than an Ethernet header -/
def runt : Frame := ⟨List.replicate 10 0, 10, by decide⟩

/-- an IP header of 20 bytes with protocol 6, and nothing behind it -/
def headerOnly : Frame := ⟨List.replicate 14 0 ++ [0x45] ++ List.replicate 8 0 ++ [6] ++ List.replicate 10 0, 34, by decide⟩

/-- **Reads out of place.** Bytes of the first frame are copied that were not captured, the length of the second wraps, and the
ports of the third are read behind the packet. -/
theorem unsound_frames :
    pcapCallback truncated = none ∧ runt.ipLen = 2 ^ 32 - 4 ∧ (pcapCallback headerOnly).bind dispatchPacket = none ∧
    ¬Sound truncated ∧ ¬Sound runt ∧ ¬Sound headerOnly := by
  have htruncated : pcapCallback truncated = none := by decide
  have hrunt : runt.ipLen = 2 ^ 32 - 4 := by decide
  have hheader : (pcapCallback headerOnly).bind dispatchPacket = none := by decide
  refine ⟨htruncated, hrunt, hheader, fun h => ?_, fun h => ?_, fun h => ?_⟩
  · obtain ⟨pkt, hpkt⟩ := h.copied
    cases htruncated.symm.trans hpkt
  · cases h.ipLen
  · obtain ⟨pkt, hpkt⟩ := h.copied
    obtain ⟨line, hline⟩ := h.read pkt hpkt
    rw [hpkt, Option.bind_some, hline] at hheader
    cases hheader

/-! ## Runs of the receiver -/

/-- what a packet gives -/
def lineOf (pkt : List UInt8) : List Line := (dispatchPacket pkt).join.toList

/-- what an action will give -/
def lines : Act → List Line
  | .capture f => (pcapCallback f).toList.flatMap lineOf
  | .process => []

/-- what has been printed and what is still to be printed for the queue -/
def Receiver.output (s : Receiver) : List Line := s.printed ++ s.packetQueue.flatMap lineOf

/-- the queued packets can be dispatched -/
def Receiver.Ready (s : Receiver) : Prop := ∀ pkt ∈ s.packetQueue, RoomInPacket pkt

theorem capture_lines (h : s.Ready) (hf : Fits f) :
    ∃ s', step s (.capture f) = some s' ∧ s'.Ready ∧ s'.output = s.output ++ lines (.capture f) := by
  obtain ⟨pkt, hpkt⟩ : ∃ pkt, pcapCallback f = some pkt := ⟨_, (pcapCallback_eq_some hf.ethernet).2 ⟨hf.whole, rfl⟩⟩
  have hroom : RoomInPacket pkt := by
    obtain ⟨-, rfl⟩ := (pcapCallback_eq_some hf.ethernet).1 hpkt
    exact (roomInPacket_copy hf.whole).2 hf.header
  refine ⟨{ s with packetQueue := s.packetQueue ++ [pkt] }, by rw [step, hpkt, Option.map_some], fun p hp => ?_, ?_⟩
  · rcases List.mem_append.1 hp with hp | hp
    · exact h p hp
    · exact List.mem_singleton.1 hp ▸ hroom
  · simp [Receiver.output, lines, hpkt]

theorem process_lines (h : s.Ready) :
    ∃ s', step s .process = some s' ∧ s'.Ready ∧ s'.output = s.output ++ lines .process := by
  unfold step
  cases hq : s.packetQueue with
  | nil => exact ⟨s, rfl, h, by simp [lines]⟩
  | cons pkt rest =>
    rw [Receiver.Ready, hq] at h
    obtain ⟨line, hline⟩ := Option.isSome_iff_exists.1 (dispatchPacket_isSome.2 (h pkt List.mem_cons_self))
    refine ⟨⟨rest, s.printed ++ line.toList⟩, by simp [hline], fun p hp => h p (List.mem_cons_of_mem pkt hp), ?_⟩
    simp [Receiver.output, lines, lineOf, hq, hline]

theorem step_lines (h : s.Ready) (act : Act) (hfits : ∀ f, act = .capture f → Fits f) :
    ∃ s', step s act = some s' ∧ s'.Ready ∧ s'.output = s.output ++ lines act := by
  cases act with
  | capture f => exact capture_lines h (hfits f rfl)
  | process => exact process_lines h

/-- **The receiver.** If all frames that are captured fit, no run faults, and the lines that have been printed and those of the
packets still queued are the lines of the frames, in the order in which they came. -/
theorem run_lines (acts : List Act) (hfits : ∀ f, Act.capture f ∈ acts → Fits f) :
    ∃ s, Machine.exec step {} acts = some s ∧ s.output = acts.flatMap lines := by
  have hgen : ∀ (acts : List Act) (s : Receiver), (∀ f, Act.capture f ∈ acts → Fits f) → s.Ready →
      ∃ s', Machine.exec step s acts = some s' ∧ s'.output = s.output ++ acts.flatMap lines := by
    intro acts
    induction acts with
    | nil => exact fun s _ _ => ⟨s, rfl, by simp⟩
    | cons act acts ih =>
      intro s hfits h
      obtain ⟨s₁, hstep, hready, hone⟩ := step_lines h act fun f hf => hfits f (hf ▸ List.mem_cons_self)
      obtain ⟨s₂, hexec, hrest⟩ := ih s₁ (fun f hf => hfits f (List.mem_cons_of_mem act hf)) hready
      refine ⟨s₂, Machine.exec_cons_eq_some.2 ⟨s₁, hstep, hexec⟩, ?_⟩
      rw [hrest, hone, List.append_assoc, List.flatMap_cons]
  exact hgen acts {} hfits fun _ h => absurd h List.not_mem_nil

end InterviewPrep.PacketHandler
