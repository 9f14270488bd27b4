/-
The overwrite-oldest packet buffers (circularQueue: cQueuePacketsDynamic.c, cQueuePacketsDynamic.cpp,
cQueuePacketsStatic.c).

The dynamic buffers hold pointers to packets on the heap. A packet and its data are one block here, as they are allocated
and freed together; blocks are numbered in the order of allocation and `free` of a block that is not live is `none`, as is
following a NULL pointer. `Heap.freed` logs the frees.
- `Dynamic` (C): a full `enqueue` frees at `tail`, advances `tail` and writes at `head`;
- `DynamicCpp` (C++): a full `enqueue` deletes at `tail`, writes there, advances `tail` and sets `head = tail`.

The static buffer holds the packets themselves, 8 arrays of 1024 bytes that keep old bytes behind a shorter packet.
- `Static` (C): `packet_buffer_push` writes at `head`, advances it, and then `tail` too if the buffer was full.

A `dequeue` that finds the buffer empty waits on the condition: it has not returned, which is the answer `none`. The flags
`running` and `g_running` are cleared by another thread without the lock; a `dequeue` takes the value it reads. Clock
readings are arguments.

`Client` runs the calls of a client on a dynamic buffer and remembers the packets it was handed. What it does with them
afterwards is not part of the model. The reference is a `Fifo` of arrivals, with the number of arrivals so far.
-/
import InterviewPrep.Core.Machine
import InterviewPrep.Core.Window

namespace InterviewPrep.CircularQueue

abbrev Bytes := List UInt8

/-! ## The heap -/

structure Heap (α : Type) where
  cells : ℕ → Option α
  next : ℕ
  freed : List ℕ

namespace Heap

variable {α : Type}

def empty : Heap α := ⟨fun _ => none, 0, []⟩

def alloc (h : Heap α) (p : α) : Heap α :=
  { h with cells := Function.update h.cells h.next (some p), next := h.next + 1 }

def discard (h : Heap α) (a : ℕ) : Heap α :=
  { h with cells := Function.update h.cells a none, freed := h.freed ++ [a] }

/-- `none`: the block is not live -/
def free (h : Heap α) (a : ℕ) : Option (Heap α) := if (h.cells a).isSome then some (h.discard a) else none

end Heap

/-- the fields of both dynamic buffers; a slot is a pointer, `none` for NULL -/
structure PacketBuffer (α : Type) where
  buffer : ℕ → Option ℕ
  capacity : ℕ
  head : ℕ
  tail : ℕ
  isFull : Bool
  heap : Heap α

namespace PacketBuffer

variable {α : Type}

/-- `create_buffer`, `PacketBuffer::PacketBuffer` -/
def create (capacity : ℕ) : PacketBuffer α := ⟨fun _ => none, capacity, 0, 0, false, Heap.empty⟩

/-- the loop of `destroy_buffer` over all slots -/
def destroyBuffer (b : PacketBuffer α) : Option (Heap α) :=
  ((List.range b.capacity).filterMap b.buffer).foldlM Heap.free b.heap

/-- number of slots from `tail` to `head`, `capacity` if full -/
def count (b : PacketBuffer α) : ℕ :=
  if b.isFull then b.capacity else (((b.head : ℤ) - b.tail) % b.capacity).toNat

/-- a new packet in a slot -/
def put (b : PacketBuffer α) (slot : ℕ) (p : α) : PacketBuffer α :=
  { b with buffer := Function.update b.buffer slot (some b.heap.next), heap := b.heap.alloc p }

/-- the slot at `tail` is emptied and left -/
def take (b : PacketBuffer α) : PacketBuffer α :=
  { b with
    buffer := Function.update b.buffer b.tail none
    tail := (b.tail + 1) % b.capacity
    isFull := false }

def setHeap (b : PacketBuffer α) (heap : Heap α) : PacketBuffer α := { b with heap := heap }

def setHead (b : PacketBuffer α) (head : ℕ) : PacketBuffer α := { b with head := head }

def setTail (b : PacketBuffer α) (tail : ℕ) : PacketBuffer α := { b with tail := tail }

def setFull (b : PacketBuffer α) (isFull : Bool) : PacketBuffer α := { b with isFull := isFull }

end PacketBuffer

/-! ## cQueuePacketsDynamic.c -/

namespace Dynamic

structure Packet where
  data : Bytes
  size : ℕ
  timestamp : ℕ
  deriving DecidableEq

def enqueue (b : PacketBuffer Packet) (data : Bytes) (now : ℕ) : Option (PacketBuffer Packet) :=
  let room :=
    if b.isFull then
      -- the oldest packet is freed, its slot still points at it
      (b.buffer b.tail).bind fun a => (b.heap.free a).map fun heap =>
        (b.setHeap heap).setTail ((b.tail + 1) % b.capacity)
    else some b
  room.map fun b =>
    let b := b.put b.head ⟨data, data.length, now⟩
    let b := b.setHead ((b.head + 1) % b.capacity)
    b.setFull (b.head = b.tail)

/-- the returned pointer; `none`: still waiting -/
def dequeue (b : PacketBuffer Packet) (running : Bool) : PacketBuffer Packet × Option (Option ℕ) :=
  if b.head = b.tail ∧ !b.isFull ∧ running then (b, none)
  else if !running then (b, some none)
  else (b.take, some (b.buffer b.tail))

end Dynamic

/-! ## cQueuePacketsDynamic.cpp -/

namespace DynamicCpp

structure Packet where
  data : Bytes
  timestamp : ℕ
  deriving DecidableEq

/-- `delete` -/
def delete (h : Heap Packet) (ptr : Option ℕ) : Option (Heap Packet) :=
  match ptr with
  | none => some h
  | some a => h.free a

def enqueue (b : PacketBuffer Packet) (data : Bytes) (now : ℕ) : Option (PacketBuffer Packet) :=
  if b.isFull then
    (delete b.heap (b.buffer b.tail)).map fun heap =>
      let b := (b.setHeap heap).put b.tail ⟨data, now⟩
      let b := b.setTail ((b.tail + 1) % b.capacity)
      b.setHead b.tail
  else
    let b := b.put b.head ⟨data, now⟩
    let b := b.setHead ((b.head + 1) % b.capacity)
    some (if b.head = b.tail then b.setFull true else b)

def isEmpty (b : PacketBuffer Packet) : Bool := !b.isFull && b.head = b.tail

def dequeue (b : PacketBuffer Packet) : PacketBuffer Packet × Option (Option ℕ) :=
  if isEmpty b then (b, none) else (b.take, some (b.buffer b.tail))

def size (b : PacketBuffer Packet) : ℤ :=
  if b.isFull then b.capacity
  else if b.tail ≤ b.head then b.head - b.tail
  else b.capacity - b.tail + b.head

end DynamicCpp

/-! ## cQueuePacketsStatic.c -/

namespace Static

abbrev maxPacketSize : ℕ := 1024
abbrev bufferCapacity : ℕ := 8

/-- `data` is the whole array, of which the first `size` bytes are the packet -/
structure Packet where
  data : Bytes
  size : ℕ
  timestamp : ℕ
  deriving DecidableEq

structure Buffer where
  buffer : ℕ → Packet
  head : ℕ
  tail : ℕ
  isFull : Bool

/-- `packet_buffer_init` leaves the packets as they are -/
def packetBufferInit (buffer : ℕ → Packet) : Buffer := ⟨buffer, 0, 0, false⟩

def memcpy (dst src : Bytes) : Bytes := src ++ dst.drop src.length

/-- the packet is written at `head` -/
def Buffer.write (pb : Buffer) (data : Bytes) (now : ℕ) : Buffer :=
  { pb with
    buffer := Function.update pb.buffer pb.head ⟨memcpy (pb.buffer pb.head).data data, data.length, now⟩
    head := (pb.head + 1) % bufferCapacity }

def Buffer.setTail (pb : Buffer) (tail : ℕ) : Buffer := { pb with tail := tail }

def Buffer.setFull (pb : Buffer) (isFull : Bool) : Buffer := { pb with isFull := isFull }

def packetBufferPush (pb : Buffer) (data : Bytes) (now : ℕ) : Buffer × ℤ :=
  if maxPacketSize < data.length then (pb, -1)
  else
    let pb := pb.write data now
    let pb := if pb.isFull then pb.setTail ((pb.tail + 1) % bufferCapacity) else pb
    (pb.setFull (pb.head = pb.tail), 0)

/-- return value and packet copied out; `none`: still waiting -/
def packetBufferPop (pb : Buffer) (running : Bool) : Buffer × Option (ℤ × Option Packet) :=
  if pb.head = pb.tail ∧ !pb.isFull ∧ running then (pb, none)
  else if !running then (pb, some (-1, none))
  else ((pb.setTail ((pb.tail + 1) % bufferCapacity)).setFull false, some (0, some (pb.buffer pb.tail)))

end Static

/-! ## Clients -/

inductive Op where
  | enqueue (data : Bytes) (now : ℕ)
  | dequeue

/-- a dynamic buffer and the packets handed out by it -/
structure Client (α : Type) where
  buf : PacketBuffer α
  handed : List ℕ

namespace Client

variable {α : Type}

def create (capacity : ℕ) : Client α := ⟨PacketBuffer.create capacity, []⟩

/-- a `dequeue` that returned: the client has the packet and looks at it -/
def receive (s : Client α) (ret : PacketBuffer α × Option (Option ℕ)) : Client α × Option α :=
  (⟨ret.1, s.handed ++ ret.2.join.toList⟩, ret.2.join.bind ret.1.heap.cells)

end Client

namespace Dynamic

def step (s : Client Packet) : Op → Option (Client Packet × Option Packet)
  | .enqueue data now => (enqueue s.buf data now).map fun b => (⟨b, s.handed⟩, none)
  | .dequeue => some (s.receive (dequeue s.buf true))

def run (capacity : ℕ) : List Op → Option (Client Packet × List (Option Packet)) :=
  Machine.run step (Client.create capacity)

end Dynamic

namespace DynamicCpp

def step (s : Client Packet) : Op → Option (Client Packet × Option Packet)
  | .enqueue data now => (enqueue s.buf data now).map fun b => (⟨b, s.handed⟩, none)
  | .dequeue => some (s.receive (dequeue s.buf))

def run (capacity : ℕ) : List Op → Option (Client Packet × List (Option Packet)) :=
  Machine.run step (Client.create capacity)

end DynamicCpp

namespace Static

def step (pb : Buffer) : Op → Option (Buffer × Option Packet)
  | .enqueue data now => some ((packetBufferPush pb data now).1, none)
  | .dequeue =>
    let (pb, ret) := packetBufferPop pb true
    some (pb, ret.bind Prod.snd)

def run (buffer : ℕ → Packet) : List Op → Option (Buffer × List (Option Packet)) :=
  Machine.run step (packetBufferInit buffer)

end Static

/-! ## The reference -/

/-- a payload and its time -/
abbrev Arrival := Bytes × ℕ

structure Ref (capacity : ℕ) where
  queue : Fifo capacity Arrival
  arrived : ℕ

namespace Ref

variable {capacity : ℕ}

def step (r : Ref capacity) : Op → Ref capacity × Option Arrival
  | .enqueue data now => (⟨r.queue.push (data, now), r.arrived + 1⟩, none)
  | .dequeue =>
    let (queue, oldest) := r.queue.pop
    (⟨queue, r.arrived⟩, oldest)

def run (capacity : ℕ) : List Op → Ref capacity × List (Option Arrival) := Machine.runTotal step ⟨Fifo.empty, 0⟩

end Ref

/-- the size and the first `size` bytes -/
def Dynamic.Packet.payload (p : Dynamic.Packet) : ℕ × Bytes := (p.size, p.data.take p.size)

def Static.Packet.payload (p : Static.Packet) : ℕ × Bytes := (p.size, p.data.take p.size)

/-- how the C buffer stores an arrival -/
def Dynamic.Packet.of (a : Arrival) : Dynamic.Packet := ⟨a.1, a.1.length, a.2⟩

/-- how the C++ buffer stores an arrival -/
def DynamicCpp.Packet.of (a : Arrival) : DynamicCpp.Packet := ⟨a.1, a.2⟩

end InterviewPrep.CircularQueue
