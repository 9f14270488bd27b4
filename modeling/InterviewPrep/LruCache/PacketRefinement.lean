/-
The packet cache refines the reference cache over whole runs.

`Op` are the calls a client makes, `run` executes them from any state and collects the replies (return value, buffer and
length of the caller). `refStep` is the same call on the reference cache `Lru 64`.

`Agrees c s`: some list of nodes satisfies `Inv` and carries the pairs of `s` in order.

Results:
- `step_refines`, `run_refines`: every call terminates, answers like the reference and keeps `Agrees`;
- `lru_refines`: from `lru_init`, every run answers like the reference, and following `next` from `head` gives its pairs;
- `lru_sound`: in every reachable state the list, the free stack and the table are consistent (`Sound`).
-/
import InterviewPrep.Core.Recency
import InterviewPrep.LruCache.PacketInv

namespace InterviewPrep.LruCache.Packet

open Cache

/-- a packet and its `uint16_t` length -/
abbrev Payload := { bytes : List UInt8 // bytes.length < 2 ^ 16 }

inductive Op where
  | put (key : UInt32) (packet : Payload)
  | get (key : UInt32) (out : Option (List UInt8)) (outLen : Option ℕ)
  | peek (key : UInt32) (out : Option (List UInt8)) (outLen : Option ℕ)
  | remove (key : UInt32)

def step (c : Cache) : Op → Option (Cache × Reply)
  | .put key packet => (c.lruPut key packet.1 packet.1.length).map fun (c, ret) => (c, ⟨ret, none, none⟩)
  | .get key out outLen => c.lruGet key out outLen
  | .peek key out outLen => some (c.lruPeek key out outLen)
  | .remove key => (c.lruRemove key).map fun (c, ret) => (c, ⟨ret, none, none⟩)

def run : Cache → List Op → Option (Cache × List Reply)
  | c, [] => some (c, [])
  | c, op :: ops => (step c op).bind fun (c, reply) => (run c ops).map fun (c, replies) => (c, reply :: replies)

/-! ## The reference -/

abbrev Ref := Lru capacity UInt32 (List UInt8)

/-- what the caller receives of a packet; `none`: the announced room is too small -/
def deliver (packet : List UInt8) (out : Option (List UInt8)) (outLen : Option ℕ) :
    Option (Option (List UInt8) × Option ℕ) :=
  match out, outLen with
  | some buf, some room =>
    if room < packet.length then none else some (some (packet ++ buf.drop packet.length), some packet.length)
  | none, some _ => some (none, some packet.length)
  | out, none => some (out, none)

/-- `get` and `peek` differ in what happens to a delivered pair -/
def refRead (s : Ref) (key : UInt32) (out : Option (List UInt8)) (outLen : Option ℕ) (after : Ref) : Ref × Reply :=
  match (s.find key).bind fun packet => deliver packet out outLen with
  | none => (s, ⟨false, out, outLen⟩)
  | some (out, outLen) => (after, ⟨true, out, outLen⟩)

def refStep (s : Ref) : Op → Ref × Reply
  | .put key packet =>
    if maxPacketSize < packet.1.length then (s, ⟨false, none, none⟩)
    else (s.store key packet.1, ⟨true, none, none⟩)
  | .get key out outLen => refRead s key out outLen (s.erase key)
  | .peek key out outLen => refRead s key out outLen (s.touch key)
  | .remove key => if (s.find key).isSome then (s.erase key, ⟨true, none, none⟩) else (s, ⟨false, none, none⟩)

def refRun : Ref → List Op → Ref × List Reply
  | s, [] => (s, [])
  | s, op :: ops =>
    let (s, reply) := refStep s op
    let (s, replies) := refRun s ops
    (s, reply :: replies)

/-! ## One call -/

def Agrees (c : Cache) (s : Ref) : Prop := ∃ ids, c.Inv ids [] ∧ s.entries = ids.map c.pair

variable {c : Cache} {s : Ref} {ids : List ℤ}

/-- a lookup finds the node of the key or nothing, like the reference -/
theorem lookup_cases (h : c.Inv ids []) (hs : s.entries = ids.map c.pair) (key : UInt32) :
    (∃ l i r, ids = l ++ i :: r ∧ (c.nodes i).key = key ∧ c.hashLookupNode key = i ∧ i ≠ -1 ∧
      s.find key = some (c.pair i).2) ∨
      (∀ i ∈ ids, (c.nodes i).key ≠ key) ∧ c.hashLookupNode key = -1 ∧ s.find key = none := by
  by_cases hex : ∃ i ∈ ids, (c.nodes i).key = key
  · obtain ⟨i, hi, rfl⟩ := hex
    obtain ⟨l, r, rfl⟩ := List.append_of_mem hi
    exact Or.inl ⟨l, i, r, rfl, rfl, hashLookupNode_found h.cells hi, h.listed.ne_null hi, Lru.find_map hs hi⟩
  · push Not at hex
    exact Or.inr ⟨hex, hashLookupNode_absent h.cells hex, Lru.find_absent hs hex⟩

theorem copyOut_eq (h : c.Cells ids []) (i : ℤ) (out : Option (List UInt8)) (outLen : Option ℕ) :
    copyOut (c.nodes i) out outLen = deliver (c.pair i).2 out outLen := by
  have hlen := length_pair h i
  rcases out with _ | buf <;> rcases outLen with _ | room
  · rfl
  · rw [copyOut, deliver, hlen]
  · rfl
  · rw [copyOut, deliver, hlen, memcpy]
    rfl

theorem pair_setNode {i j : ℤ} (hj : j ≠ i) (n : Node) : (c.setNode i n).pair j = c.pair j := by
  simp [pair, setNode, hj]

theorem put_present {l r : List ℤ} {i : ℤ} (hinv : c.Inv (l ++ i :: r) []) (hs : s.entries = (l ++ i :: r).map c.pair)
    {data : List UInt8} (hlen : data.length ≤ maxPacketSize) :
    Agrees ((c.setNode i { c.nodes i with
      data := memcpy (c.nodes i).data data data.length, len := data.length }).moveToHead i)
      (s.store (c.nodes i).key data) := by
  set n : Node := { c.nodes i with data := memcpy (c.nodes i).data data data.length, len := data.length } with hn
  have hover : (c.setNode i n).Inv (l ++ i :: r) [] := overwrite_inv hinv rfl hlen
  have hpairs := (moveToHead_frame (c.setNode i n) i).pair
  refine ⟨i :: (l ++ r), moveToHead_inv hover, ?_⟩
  have hrest : ∀ j ∈ l ++ r, ((c.setNode i n).moveToHead i).pair j = c.pair j := by
    intro j hj
    rw [hpairs j]
    apply pair_setNode
    rintro rfl
    exact hinv.notMem hj
  have hpair : (c.setNode i n).pair i = ((c.nodes i).key, data) := by
    simp [pair, setNode, hn, take_memcpy]
  have hstore : (s.store (c.nodes i).key data).entries = ((c.nodes i).key, data) :: (l ++ r).map c.pair :=
    Lru.store_present hs data
  rw [hstore, List.map_cons, List.map_congr_left hrest, hpairs i, hpair]

/-- a new key gets a node from the free stack or the node of the least recent pair -/
theorem put_absent (hinv : c.Inv ids []) (hs : s.entries = ids.map c.pair) {key : UInt32}
    (habsent : ∀ i ∈ ids, (c.nodes i).key ≠ key) {data : List UInt8} (hlen : data.length ≤ maxPacketSize) :
    ∃ c₁ i c₂, c.allocateNode = some (c₁, i) ∧ 0 ≤ i ∧ c₁.putNew i key data data.length = some (c₂, true) ∧
      Agrees c₂ (s.store key data) := by
  obtain ⟨c₁, i, halloc, hnonneg, hinv₁, hpairs₁⟩ := allocateNode_inv hinv
  set ids₁ := if ids.length = capacity then ids.dropLast else ids with hids₁
  have hsub : ∀ j ∈ ids₁, j ∈ ids := by
    intro j hj
    rw [hids₁] at hj
    split_ifs at hj
    · exact List.dropLast_subset ids hj
    · exact hj
  have hold : ∀ j ∈ ids₁, c₁.pair j = c.pair j := by
    intro j hj
    apply hpairs₁ j (hsub j hj)
    rintro rfl
    exact hinv₁.cells.inFlight.2 hj
  have hkey : ∀ j ∈ ids₁, (c₁.nodes j).key ≠ key := by
    intro j hj heq
    exact habsent j (hsub j hj) ((congrArg Prod.fst (hold j hj)).symm.trans heq)
  obtain ⟨c₂, hput, hinv₂, hpair, hpairs₂⟩ := putNew_inv hinv₁ rfl hlen hkey
  refine ⟨c₁, i, c₂, halloc, hnonneg, hput, i :: ids₁, hinv₂, ?_⟩
  have hmap : ids₁.map c₂.pair = ids₁.map c.pair :=
    List.map_congr_left fun j hj => (hpairs₂ j hj).trans (hold j hj)
  rw [List.map_cons, hpair, hmap, Lru.store_absent hs habsent, hids₁]
  split_ifs <;> rfl

theorem lruPut_refines (h : Agrees c s) (key : UInt32) {data : List UInt8} (hlen : data.length ≤ maxPacketSize) :
    ∃ c', c.lruPut key data data.length = some (c', true) ∧ Agrees c' (s.store key data) := by
  obtain ⟨ids, hinv, hs⟩ := h
  rw [lruPut, if_neg (Nat.not_lt.2 hlen)]
  rcases lookup_cases hinv hs key with ⟨l, i, r, rfl, rfl, hlookup, hnull, -⟩ | ⟨habsent, hlookup, -⟩
  · exact ⟨_, by rw [hlookup, if_pos hnull], put_present hinv hs hlen⟩
  · obtain ⟨c₁, i, c₂, halloc, hnonneg, hput, hagree⟩ := put_absent hinv hs habsent hlen
    refine ⟨c₂, ?_, hagree⟩
    simp only [hlookup, ne_eq, not_true_eq_false, if_false, halloc, Option.bind_some, Int.not_lt.2 hnonneg, hput]

theorem lruGet_refines (h : Agrees c s) (key : UInt32) (out : Option (List UInt8)) (outLen : Option ℕ) :
    ∃ c', c.lruGet key out outLen = some (c', (refRead s key out outLen (s.erase key)).2) ∧
      Agrees c' (refRead s key out outLen (s.erase key)).1 := by
  obtain ⟨ids, hinv, hs⟩ := h
  rcases lookup_cases hinv hs key with ⟨l, i, r, rfl, rfl, hlookup, hnull, hfind⟩ | ⟨-, hlookup, hfind⟩
  · rw [refRead, lruGet, hlookup, if_neg hnull, copyOut_eq hinv.cells, hfind, Option.bind_some]
    rcases deliver (c.pair i).2 out outLen with _ | ⟨out', outLen'⟩
    · exact ⟨c, rfl, _, hinv, hs⟩
    · obtain ⟨c', hrelease, hinv', hpairs⟩ := release_inv hinv
      refine ⟨c', by simp only [hrelease, Option.map_some], l ++ r, hinv', ?_⟩
      rw [List.map_congr_left hpairs]
      exact Lru.erase_map hs
  · rw [refRead, lruGet, hlookup, if_pos rfl, hfind, Option.bind_none]
    exact ⟨c, rfl, ids, hinv, hs⟩

theorem lruPeek_refines (h : Agrees c s) (key : UInt32) (out : Option (List UInt8)) (outLen : Option ℕ) :
    (c.lruPeek key out outLen).2 = (refRead s key out outLen (s.touch key)).2 ∧
      Agrees (c.lruPeek key out outLen).1 (refRead s key out outLen (s.touch key)).1 := by
  obtain ⟨ids, hinv, hs⟩ := h
  rcases lookup_cases hinv hs key with ⟨l, i, r, rfl, rfl, hlookup, hnull, hfind⟩ | ⟨-, hlookup, hfind⟩
  · rw [refRead, lruPeek, hlookup, if_neg hnull, copyOut_eq hinv.cells, hfind, Option.bind_some]
    rcases deliver (c.pair i).2 out outLen with _ | ⟨out', outLen'⟩
    · exact ⟨rfl, _, hinv, hs⟩
    · refine ⟨rfl, i :: (l ++ r), moveToHead_inv hinv, ?_⟩
      rw [List.map_congr_left fun j _ => (moveToHead_frame c i).pair j]
      exact Lru.touch_map hs
  · rw [refRead, lruPeek, hlookup, if_pos rfl, hfind, Option.bind_none]
    exact ⟨rfl, ids, hinv, hs⟩

theorem lruRemove_refines (h : Agrees c s) (key : UInt32) :
    ∃ c', c.lruRemove key = some (c', (s.find key).isSome) ∧
      Agrees c' (if (s.find key).isSome then s.erase key else s) := by
  obtain ⟨ids, hinv, hs⟩ := h
  rcases lookup_cases hinv hs key with ⟨l, i, r, rfl, rfl, hlookup, hnull, hfind⟩ | ⟨-, hlookup, hfind⟩
  · obtain ⟨c', hrelease, hinv', hpairs⟩ := release_inv hinv
    rw [lruRemove, hlookup, if_neg hnull, hrelease, hfind]
    refine ⟨c', rfl, l ++ r, hinv', ?_⟩
    rw [List.map_congr_left hpairs]
    exact Lru.erase_map hs
  · rw [lruRemove, hlookup, if_pos rfl, hfind]
    exact ⟨c, rfl, ids, hinv, hs⟩

/-- **One call** is answered like the reference. -/
theorem step_refines (h : Agrees c s) (op : Op) :
    ∃ c', step c op = some (c', (refStep s op).2) ∧ Agrees c' (refStep s op).1 := by
  cases op with
  | put key packet =>
    rw [step, refStep]
    by_cases hlen : maxPacketSize < packet.1.length
    · rw [if_pos hlen, lruPut, if_pos hlen]
      exact ⟨c, rfl, h⟩
    · obtain ⟨c', hput, hagree⟩ := lruPut_refines h key (Nat.not_lt.1 hlen)
      rw [if_neg hlen, hput]
      exact ⟨c', rfl, hagree⟩
  | get key out outLen => exact lruGet_refines h key out outLen
  | peek key out outLen =>
    obtain ⟨hreply, hagree⟩ := lruPeek_refines h key out outLen
    refine ⟨_, ?_, hagree⟩
    rw [step, refStep, ← hreply]
  | remove key =>
    obtain ⟨c', hremove, hagree⟩ := lruRemove_refines h key
    refine ⟨c', ?_, ?_⟩
    · rw [step, refStep, hremove]
      cases (s.find key).isSome <;> rfl
    · rw [refStep]
      cases hfind : (s.find key).isSome <;> simpa [hfind] using hagree

/-! ## Whole runs -/

theorem run_refines (h : Agrees c s) (ops : List Op) :
    ∃ c', run c ops = some (c', (refRun s ops).2) ∧ Agrees c' (refRun s ops).1 := by
  induction ops generalizing c s with
  | nil => exact ⟨c, rfl, h⟩
  | cons op ops ih =>
    obtain ⟨c₁, hstep, h₁⟩ := step_refines h op
    obtain ⟨c₂, hrun, h₂⟩ := ih h₁
    refine ⟨c₂, ?_, h₂⟩
    simp only [run, hstep, Option.bind_some, hrun, Option.map_some, refRun]

theorem init_agrees : Agrees lruInit Lru.empty := ⟨[], lruInit_inv, rfl⟩

theorem Cache.Inv.length_le (h : c.Inv ids []) : ids.length ≤ capacity := by
  have hcount := h.cells.count
  omega

/-- **Refinement.** From `lru_init`, every run of calls terminates, every return value and everything written to the
caller is the reference's, and following `next` from `head` visits exactly the reference's pairs in order. -/
theorem lru_refines (ops : List Op) :
    ∃ c, run lruInit ops = some (c, (refRun Lru.empty ops).2) ∧
      c.forward.map (List.map c.pair) = some (refRun Lru.empty ops).1.entries := by
  obtain ⟨c, hrun, ids, hinv, hs⟩ := run_refines init_agrees ops
  refine ⟨c, hrun, ?_⟩
  rw [forward_eq hinv.listed hinv.length_le, Option.map_some, hs]

/-- the list, the free stack and the table of a cache are consistent -/
structure Sound (c : Cache) (ids : List ℤ) : Prop where
  forward : c.forward = some ids
  backward : c.backward = some ids.reverse
  nodup : ids.Nodup
  size : c.size = ids.length
  valid : ∀ i, i ∈ ids ↔ 0 ≤ i ∧ i < capacity ∧ (c.nodes i).valid = true
  keys : ∀ i ∈ ids, ∀ j ∈ ids, (c.nodes i).key = (c.nodes j).key → i = j
  freeNodup : c.freeStack.Nodup
  free : ∀ i, i ∈ c.freeStack ↔ 0 ≤ i ∧ i < capacity ∧ i ∉ ids
  count : c.size + c.freeCount = capacity
  entries : ∀ s < hashSize, c.hashTable s = -1 ∨ c.hashTable s ∈ ids
  slot : ∀ i ∈ ids, ∃! s, s < hashSize ∧ c.hashTable s = i
  path : ∀ s < hashSize, ∀ i ∈ ids, c.hashTable s = i → ∃ p < hashSize,
    s = (hashKey (c.nodes i).key + p) % hashSize ∧ ∀ d ≤ p, c.hashTable ((hashKey (c.nodes i).key + d) % hashSize) ≠ -1

theorem Cache.Inv.sound (h : c.Inv ids []) : Sound c ids := by
  have hnd := h.cells.nodup
  have hpart := h.cells.partition
  rw [List.append_nil] at hnd hpart
  have hmem : ∀ i, (i ∈ ids ∨ i ∈ c.freeStack) ↔ 0 ≤ i ∧ i < capacity := by
    intro i
    rw [← List.mem_append, hpart.mem_iff, mem_allNodes]
  have happart := (List.nodup_append.1 hnd).2.2
  have hlen := h.length_le
  refine ⟨forward_eq h.listed hlen, backward_eq h.listed hlen, h.cells.nodup_ids, h.cells.size, ?_, ?_,
    (List.nodup_append.1 hnd).2.1, ?_, ?_, ?_, ?_, ?_⟩
  · intro i
    rw [h.cells.valid i]
    constructor
    · intro hi
      obtain ⟨hlow, hhigh⟩ := (hmem i).1 (Or.inl hi)
      exact ⟨hlow, hhigh, hi⟩
    · rintro ⟨-, -, hi⟩
      exact hi
  · intro i hi j hj
    exact h.cells.key_inj hi hj
  · intro i
    constructor
    · intro hi
      obtain ⟨hlow, hhigh⟩ := (hmem i).1 (Or.inr hi)
      exact ⟨hlow, hhigh, fun hlisted => happart i hlisted i hi rfl⟩
    · rintro ⟨hlow, hhigh, hi⟩
      exact ((hmem i).2 ⟨hlow, hhigh⟩).resolve_left hi
  · have hcount := h.cells.count
    rw [List.length_nil, Nat.add_zero] at hcount
    rw [h.cells.size]
    exact_mod_cast hcount
  · intro s hs
    rcases eq_or_ne (c.hashTable s) (-1) with hempty | hne
    · exact Or.inl hempty
    · exact Or.inr (h.cells.table.sound s hs hne)
  · intro i hi
    obtain ⟨s, hs, hsi⟩ := h.cells.table.complete i hi
    refine ⟨s, ⟨hs, hsi⟩, ?_⟩
    rintro s' ⟨hs', hsi'⟩
    exact h.cells.table.once s' hs' s hs (hsi'.trans_ne (h.listed.ne_null hi)) (hsi'.trans hsi.symm)
  · rintro s hs i hi rfl
    exact h.cells.table.path s hs (h.listed.ne_null hi)

/-- **Consistency.** In every state reached from `lru_init`, the nodes from `head` by `next` are those from `tail` by
`prev`, `size` many, exactly the valid ones, with distinct keys; the free stack holds exactly the other nodes, each once;
every table entry is empty or a valid node, each valid node has one slot, and its probe path up to there has no empty
slot. (`free_list` is never written past its end: the run is `some`.) -/
theorem lru_sound (ops : List Op) : ∃ c replies ids, run lruInit ops = some (c, replies) ∧ Sound c ids := by
  obtain ⟨c, hrun, ids, hinv, -⟩ := run_refines init_agrees ops
  exact ⟨c, _, ids, hrun, hinv.sound⟩

end InterviewPrep.LruCache.Packet
