/-
No silent loss in the packet cache (lruCache/packet/lru_packet_cache.c), and where it fails.

The header promises of `lru_get`: "Returns true if found and copied, false otherwise". The code copies only if both
pointers are there; with a NULL `out` or a NULL `out_len` it skips the copy, then removes the entry and returns true.

`stored c` are the pairs on the recency list. A call is `Lossless` if every pair that is gone after it is accounted for
(`Accounted`: overwritten or evicted by `lru_put`, removed by `lru_remove`, or copied to the caller by `lru_get`), and
`lru_get` keeps its promise. A packet is `Copied` if `memcpy` has moved all of it (`moves` follows the branches of `lru_get`
down to the call of `memcpy`); a buffer that has the payload already does not count. `Safe` is the condition on the stored
pairs and the arguments: an `lru_get` of a stored key brings a buffer and a length.

- `lruGet_out`: what `lru_get` leaves in the buffer is what `moves` says that `memcpy` has moved there, and nothing else;
- `step_lossless_iff`: on a state that agrees with the reference, a call is lossless exactly if it is safe;
- `run_lossless_iff`: the calls of a run from `lru_init` are all lossless exactly if they are all safe.

`get_without_buffer` is the smallest loss.
-/
import InterviewPrep.LruCache.PacketRefinement

namespace InterviewPrep.LruCache.Packet

open Cache

/-- the pairs on the list, from `head` by `next` -/
def stored (c : Cache) : List (UInt32 × List UInt8) := (c.forward.getD []).map c.pair

/-- what `memcpy` moves to `out`, in the branches of `copyOut`; `none` where it is not called -/
def moved (n : Node) (out : Option (List UInt8)) (outLen : Option ℕ) : Option (List UInt8) :=
  match out, outLen with
  | some _, some room => if room < n.len then none else some (n.data.take n.len)
  | _, _ => none

/-- the same for a call of `lru_get` -/
def moves (c : Cache) (key : UInt32) (out : Option (List UInt8)) (outLen : Option ℕ) : Option (List UInt8) :=
  let idx := c.hashLookupNode key
  if idx = -1 then none else moved (c.nodes idx) out outLen

/-- the call of `lru_get` has copied the packet: it was moved as a whole, and the caller's buffer starts with it -/
def Copied (c : Cache) (key : UInt32) (out : Option (List UInt8)) (outLen : Option ℕ) (packet : List UInt8) (reply : Reply) :
    Prop :=
  moves c key out outLen = some packet ∧ ∃ buf, out = some buf ∧ reply.out = some (packet ++ buf.drop packet.length)

/-- what may become of a pair that was stored before the call and is not after it -/
def Accounted (c : Cache) (e : UInt32 × List UInt8) (reply : Reply) : Op → Prop
  | .put key _ =>
    e.1 = key ∨ (key ∉ (stored c).map Prod.fst ∧ (stored c).length = capacity ∧ (stored c).getLast? = some e)
  | .get key out outLen => e.1 = key ∧ reply.ret = true ∧ Copied c key out outLen e.2 reply
  | .peek _ _ _ => False
  | .remove key => e.1 = key

/-- the promise of `lru_get` -/
def Promised (c c' : Cache) (reply : Reply) : Op → Prop
  | .get key out outLen =>
    (reply.ret = true → ∃ packet, (key, packet) ∈ stored c ∧ Copied c key out outLen packet reply) ∧
      (reply.ret = false → c' = c)
  | _ => True

structure Lossless (c : Cache) (op : Op) (c' : Cache) (reply : Reply) : Prop where
  accounted : ∀ e ∈ stored c, e ∉ stored c' → Accounted c e reply op
  promised : Promised c c' reply op

/-- the caller of `lru_get` gives a buffer and its length -/
def Safe (before : List (UInt32 × List UInt8)) : Op → Prop
  | .get key out outLen => key ∈ before.map Prod.fst → out.isSome ∧ outLen.isSome
  | _ => True

/-! ## One call -/

variable {c c' : Cache} {s : Ref} {reply : Reply} {key : UInt32} {out out' : Option (List UInt8)}
  {outLen outLen' : Option ℕ} {packet : List UInt8}

theorem stored_eq (h : Agrees c s) : stored c = s.entries := by
  obtain ⟨ids, hinv, hs⟩ := h
  rw [stored, forward_eq hinv.listed hinv.length_le, Option.getD_some, hs]

/-- `memcpy` has moved the packet if there are a buffer and a length, and the room is enough -/
theorem moves_eq (h : Agrees c s) (hfind : s.find key = some packet) :
    moves c key out outLen = if out.isSome ∧ (∃ room ∈ outLen, packet.length ≤ room) then some packet else none := by
  obtain ⟨ids, hinv, hs⟩ := h
  rcases lookup_cases hinv hs key with ⟨l, i, r, rfl, -, hlookup, hnull, hfound⟩ | ⟨-, -, hnone⟩
  · obtain rfl := Option.some.inj (hfound.symm.trans hfind)
    have hlen := length_pair hinv.cells i
    have hdata : (c.nodes i).data.take (c.nodes i).len = (c.pair i).2 := rfl
    rw [moves, hlookup, if_neg hnull, moved.eq_def]
    rcases out with _ | buf <;> rcases outLen with _ | room
    · simp
    · simp
    · simp
    · by_cases hroom : room < (c.nodes i).len
      · simp [hroom, hlen]
      · simp [hroom, hlen, hdata, Nat.not_lt.1 hroom]
  · rw [hfind] at hnone
    cases hnone

theorem deliver_some (hdeliver : deliver packet out outLen = some (out', outLen')) :
    (∃ buf room, out = some buf ∧ outLen = some room ∧ packet.length ≤ room ∧ out' = some (packet ++ buf.drop packet.length)) ∨
      (out = none ∨ outLen = none) ∧ out' = out := by
  rcases out with _ | buf <;> rcases outLen with _ | room
  · exact Or.inr ⟨Or.inl rfl, (Prod.mk.inj (Option.some.inj hdeliver)).1.symm⟩
  · exact Or.inr ⟨Or.inl rfl, (Prod.mk.inj (Option.some.inj hdeliver)).1.symm⟩
  · exact Or.inr ⟨Or.inr rfl, (Prod.mk.inj (Option.some.inj hdeliver)).1.symm⟩
  · obtain ⟨hroom, heq⟩ := Option.ite_none_left_eq_some.1 hdeliver
    exact Or.inl ⟨buf, room, rfl, rfl, Nat.not_lt.1 hroom, (Prod.mk.inj (Option.some.inj heq)).1.symm⟩

/-- a packet that `deliver` holds back was asked for with too little room -/
theorem deliver_none (hdeliver : deliver packet out outLen = none) :
    ∃ buf room, out = some buf ∧ outLen = some room ∧ room < packet.length := by
  rcases out with _ | buf <;> rcases outLen with _ | room
  · cases hdeliver
  · cases hdeliver
  · cases hdeliver
  · exact ⟨buf, room, rfl, rfl, not_le.1 fun hroom => nomatch ite_eq_left_iff.1 hdeliver (Nat.not_lt.2 hroom)⟩

/-- what `deliver` writes is what `memcpy` has moved -/
theorem deliver_out (hdeliver : deliver packet out outLen = some (out', outLen')) :
    out' = out.map fun buf =>
      let bytes := (if out.isSome ∧ (∃ room ∈ outLen, packet.length ≤ room) then some packet else none).getD []
      bytes ++ buf.drop bytes.length := by
  rcases deliver_some hdeliver with ⟨buf, room, rfl, rfl, hroom, rfl⟩ | ⟨rfl | rfl, rfl⟩
  · simp [hroom]
  · rfl
  · simp

/-- **What is written.** `lru_get` leaves in the caller's buffer what its `memcpy` has moved there, and the rest as it was. -/
theorem lruGet_out (h : Agrees c s) (hget : c.lruGet key out outLen = some (c', reply)) :
    reply.out = out.map fun buf => (moves c key out outLen).getD [] ++ buf.drop ((moves c key out outLen).getD []).length := by
  obtain ⟨c₁, hget₁, -⟩ := lruGet_refines h key out outLen
  obtain ⟨rfl, rfl⟩ := Prod.mk.inj (Option.some.inj (hget₁.symm.trans hget))
  have hunwritten : moves c key out outLen = none →
      out = out.map fun buf => (moves c key out outLen).getD [] ++ buf.drop ((moves c key out outLen).getD []).length := by
    intro hnone
    rw [hnone]
    simp
  cases hfind : s.find key with
  | none =>
    rw [refRead, hfind, Option.bind_none]
    refine hunwritten ?_
    obtain ⟨ids, hinv, hs⟩ := h
    rcases lookup_cases hinv hs key with ⟨l, i, r, -, -, -, -, hfound⟩ | ⟨-, hlookup, -⟩
    · rw [hfind] at hfound
      cases hfound
    · rw [moves, hlookup, if_pos rfl]
  | some packet =>
    rw [refRead, hfind, Option.bind_some]
    cases hdeliver : deliver packet out outLen with
    | none =>
      refine hunwritten ?_
      obtain ⟨buf, room, rfl, rfl, hroom⟩ := deliver_none hdeliver
      rw [moves_eq h hfind]
      simp [hroom]
    | some given =>
      rw [moves_eq h hfind]
      exact deliver_out hdeliver

/-- a packet that `deliver` lets go was copied exactly if the call was safe -/
theorem copied_iff (h : Agrees c s) (hfind : s.find key = some packet)
    (hdeliver : deliver packet out outLen = some (out', outLen')) :
    Copied c key out outLen packet ⟨true, out', outLen'⟩ ↔ out.isSome ∧ outLen.isSome := by
  unfold Copied
  rw [moves_eq h hfind]
  rcases deliver_some hdeliver with ⟨buf, room, rfl, rfl, hroom, rfl⟩ | ⟨rfl | rfl, rfl⟩
  · simp [hroom]
  · simp
  · simp

/-- a refused `lru_get` writes nothing -/
theorem lruGet_refused (hget : c.lruGet key out outLen = some (c', reply)) (hret : reply.ret = false) : c' = c := by
  unfold lruGet at hget
  dsimp only at hget
  split_ifs at hget
  · exact (Prod.mk.inj (Option.some.inj hget)).1.symm
  · split at hget
    · exact (Prod.mk.inj (Option.some.inj hget)).1.symm
    · obtain ⟨c₁, -, heq⟩ := Option.map_eq_some_iff.1 hget
      obtain ⟨-, rfl⟩ := Prod.mk.inj heq
      cases hret

theorem safe_get_iff (hfind : s.find key = some packet) :
    Safe s.entries (.get key out outLen) ↔ out.isSome ∧ outLen.isSome :=
  ⟨fun hsafe => hsafe (List.mem_map_of_mem (Lru.find_eq_some.1 hfind)), fun hboth _ => hboth⟩

theorem get_lossless_iff (h : Agrees c s) (hget : c.lruGet key out outLen = some (c', reply)) :
    Lossless c (.get key out outLen) c' reply ↔ Safe (stored c) (.get key out outLen) := by
  obtain ⟨c₁, hget₁, h₁⟩ := lruGet_refines h key out outLen
  obtain ⟨rfl, rfl⟩ := Prod.mk.inj (Option.some.inj (hget₁.symm.trans hget))
  have hrefused := lruGet_refused hget
  -- a refused call loses nothing
  have hkept : (refRead s key out outLen (s.erase key)).2.ret = false →
      Lossless c (.get key out outLen) c₁ (refRead s key out outLen (s.erase key)).2 := by
    intro hret
    obtain rfl := hrefused hret
    exact ⟨fun e he hgone => absurd he hgone, fun htrue => absurd (htrue.symm.trans hret) (by decide), fun _ => rfl⟩
  rw [stored_eq h]
  cases hfind : s.find key with
  | none =>
    have hret : (refRead s key out outLen (s.erase key)).2.ret = false := by rw [refRead, hfind, Option.bind_none]
    refine iff_of_true (hkept hret) ?_
    intro hmem
    obtain ⟨⟨k, packet⟩, hentry, rfl⟩ := List.mem_map.1 hmem
    rw [Lru.find_eq_some.2 hentry] at hfind
    cases hfind
  | some packet =>
    rw [safe_get_iff hfind]
    cases hdeliver : deliver packet out outLen with
    | none =>
      have hret : (refRead s key out outLen (s.erase key)).2.ret = false := by
        rw [refRead, hfind, Option.bind_some, hdeliver]
      obtain ⟨buf, room, rfl, rfl, -⟩ := deliver_none hdeliver
      exact iff_of_true (hkept hret) ⟨rfl, rfl⟩
    | some given =>
      obtain ⟨out', outLen'⟩ := given
      rw [← copied_iff h hfind hdeliver]
      have hread : refRead s key out outLen (s.erase key) = (s.erase key, ⟨true, out', outLen'⟩) := by
        rw [refRead, hfind, Option.bind_some, hdeliver]
      rw [hread] at h₁ ⊢
      constructor
      · intro hlossless
        obtain ⟨packet', hmem, hcopied⟩ := hlossless.promised.1 rfl
        rw [stored_eq h, ← Lru.find_eq_some, hfind] at hmem
        cases hmem
        exact hcopied
      · intro hcopied
        have hmem := Lru.find_eq_some.1 hfind
        refine ⟨?_, fun _ => ⟨packet, (stored_eq h).symm ▸ hmem, hcopied⟩, fun hret => by cases hret⟩
        intro e he hgone
        rw [stored_eq h] at he
        rw [stored_eq h₁] at hgone
        obtain rfl := Lru.erase_leaves he hgone
        obtain rfl : packet = e.2 := Option.some.inj (hfind.symm.trans (Lru.find_eq_some.2 he))
        exact ⟨rfl, rfl, hcopied⟩

/-- **One call** is lossless exactly if it is safe. -/
theorem step_lossless_iff (h : Agrees c s) {op : Op} (hstep : step c op = some (c', reply)) :
    Lossless c op c' reply ↔ Safe (stored c) op := by
  obtain ⟨c₁, hstep₁, h₁⟩ := step_refines h op
  obtain ⟨rfl, rfl⟩ := Prod.mk.inj (Option.some.inj (hstep₁.symm.trans hstep))
  cases op with
  | get key out outLen => exact get_lossless_iff h hstep
  | put key packet =>
    refine iff_of_true ⟨?_, trivial⟩ trivial
    intro e he hgone
    rw [stored_eq h] at he
    rw [stored_eq h₁, refStep] at hgone
    unfold Accounted
    rw [stored_eq h]
    split_ifs at hgone
    · exact absurd he hgone
    · exact Lru.store_leaves he hgone
  | peek key out outLen =>
    refine iff_of_true ⟨?_, trivial⟩ trivial
    intro e he hgone
    rw [stored_eq h] at he
    rw [stored_eq h₁, refStep, refRead] at hgone
    split at hgone
    · exact hgone he
    · exact hgone (Lru.mem_touch he)
  | remove key =>
    refine iff_of_true ⟨?_, trivial⟩ trivial
    intro e he hgone
    rw [stored_eq h] at he
    rw [stored_eq h₁, refStep] at hgone
    split_ifs at hgone
    · exact Lru.erase_leaves he hgone
    · exact absurd he hgone

/-! ## Whole runs -/

/-- after the calls `pre` from `lru_init`, the call `op` terminates and is lossless -/
def LosslessAt (pre : List Op) (op : Op) : Prop :=
  ∃ c replies c' reply, run lruInit pre = some (c, replies) ∧ step c op = some (c', reply) ∧ Lossless c op c' reply

/-- after the calls `pre` from `lru_init`, the call `op` is safe -/
def SafeAt (pre : List Op) (op : Op) : Prop :=
  ∀ c replies, run lruInit pre = some (c, replies) → Safe (stored c) op

theorem losslessAt_iff (pre : List Op) (op : Op) : LosslessAt pre op ↔ SafeAt pre op := by
  obtain ⟨c, hrun, h⟩ := run_refines init_agrees pre
  obtain ⟨c', hstep, -⟩ := step_refines h op
  have hiff := step_lossless_iff h hstep
  constructor
  · intro ⟨c₁, replies, c₂, reply, hrun₁, hstep₁, hlossless⟩ c₃ replies' hrun'
    obtain ⟨rfl, -⟩ := Prod.mk.inj (Option.some.inj (hrun.symm.trans hrun₁))
    obtain ⟨rfl, -⟩ := Prod.mk.inj (Option.some.inj (hrun.symm.trans hrun'))
    obtain ⟨rfl, rfl⟩ := Prod.mk.inj (Option.some.inj (hstep.symm.trans hstep₁))
    exact hiff.1 hlossless
  · intro hsafe
    exact ⟨c, _, c', _, hrun, hstep, hiff.2 (hsafe c _ hrun)⟩

/-- **No silent loss.** In a run from `lru_init`, every call accounts for the packets that are gone after it and `lru_get`
keeps its promise, exactly if every `lru_get` of a stored key brings a buffer and a length. -/
theorem run_lossless_iff (ops : List Op) :
    (∀ pre op post, ops = pre ++ op :: post → LosslessAt pre op) ↔
      ∀ pre op post, ops = pre ++ op :: post → SafeAt pre op := by
  simp only [losslessAt_iff]

/-- **A packet lost.** One packet is stored; `lru_get` with two NULL pointers returns true, and so it does with only a
length. The packet is gone and nobody has it. -/
theorem get_without_buffer :
    (run lruInit [.put 1 ⟨[7, 8], by decide⟩]).map (fun p => stored p.1) = some [(1, [7, 8])] ∧
      (run lruInit [.put 1 ⟨[7, 8], by decide⟩, .get 1 none none]).map (fun p => (stored p.1, p.2)) =
        some ([], [⟨true, none, none⟩, ⟨true, none, none⟩]) ∧
      ¬LosslessAt [.put 1 ⟨[7, 8], by decide⟩] (.get 1 none none) := by
  have hstored : (run lruInit [.put 1 ⟨[7, 8], by decide⟩]).map (fun p => stored p.1) = some [(1, [7, 8])] := by decide
  refine ⟨hstored, by decide, ?_⟩
  rw [losslessAt_iff]
  intro hsafe
  obtain ⟨⟨c, replies⟩, hrun, hc⟩ := Option.map_eq_some_iff.1 hstored
  have hmem : 1 ∈ (stored c).map Prod.fst := by
    rw [hc]
    exact List.mem_singleton_self 1
  exact absurd (hsafe c replies hrun hmem).1 (by decide)

end InterviewPrep.LruCache.Packet
