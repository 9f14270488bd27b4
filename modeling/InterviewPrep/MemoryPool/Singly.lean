/-
The singly linked memory pools: `memorypool/memorypoolSLL.c`, `memorypool/memorypoolSLL.cpp` and
`memorypool/memorypool.c`.

Memory is the headers by byte offset from the start of the pool (`mem`); a pointer is such an offset and NULL is `none`.
Header bytes are not split further: a header occupies the H bytes from its offset on, and `scribble` lets client writes
change every header that overlaps them. All sizes are size_t values, so sums and differences are taken mod 2^64
(`addSz`, `subSz`). A `while` loop gets `maxSteps` iterations, more than there are addresses; `none` is a loop that
needs more.

The three files share the header fields and the shape of the allocation loop. They differ in
- the split test (`current->size > size + sizeof` against `>= size + sizeof + 4`) and the ALIGN4 rounding;
- the coalescing loop: `memorypoolSLL.c` stays on a merged block, `memorypoolSLL.cpp` moves on after a merge,
  `memorypool.c` stays and tests `current->next` in the loop head;
- the guards: `memorypoolSLL.cpp` checks neither the pool size nor a NULL argument of `free`.

Results: `sllC_refines`, `sllCpp_refines`, `aligned_refines`: each file implements the first-fit allocator of its
policy, call by call (`FirstFit.Refines`), from any state whose headers list a tiling (`Pool`). `aligned_runs` and
`aligned_serves_iff` are about whole runs of `memorypool.c`; the second finds the requests whose rounding wraps around.
-/
import Mathlib.Tactic
import InterviewPrep.Core.FirstFit

namespace InterviewPrep.MemoryPool

open Blocks FirstFit

/-! ## size_t arithmetic -/

def addSz (a b : ℕ) : ℕ := (a + b) % 2 ^ 64

def subSz (a b : ℕ) : ℕ := (a + (2 ^ 64 - b)) % 2 ^ 64

theorem addSz_eq {a b : ℕ} (h : a + b < 2 ^ 64) : addSz a b = a + b := Nat.mod_eq_of_lt h

theorem subSz_eq {a b : ℕ} (h : b ≤ a) (ha : a < 2 ^ 64) : subSz a b = a - b := by
  unfold subSz
  omega

/-- a traversal that takes more steps than there are addresses never ends -/
def maxSteps : ℕ := 2 ^ 64

namespace Singly

/-! ## Headers and the shared allocation loop -/

structure MemBlock where
  size : ℕ
  next : Option ℕ
  free : Bool
deriving DecidableEq, Repr

structure MemPool where
  mem : ℕ → MemBlock
  poolSize : ℕ
  head : Option ℕ

/-- the split: a new free block after `size` payload bytes of `current` -/
def split (H size : ℕ) (mem : ℕ → MemBlock) (current : ℕ) : ℕ → MemBlock :=
  let newBlock := addSz (addSz current H) size
  let mem := Function.update mem newBlock ⟨subSz (subSz (mem current).size size) H, (mem current).next, true⟩
  Function.update mem current { mem current with size := size, next := some newBlock }

/-- `while (current != NULL)` of the allocation functions, with the file's own split test -/
def allocLoop (H : ℕ) (splits : ℕ → ℕ → Bool) (size : ℕ) :
    ℕ → (ℕ → MemBlock) → Option ℕ → Option ((ℕ → MemBlock) × Option ℕ)
  | 0, _, _ => none
  | _ + 1, mem, none => some (mem, none)
  | fuel + 1, mem, some current =>
    if (mem current).free && size ≤ (mem current).size then
      let mem := if splits size (mem current).size then split H size mem current else mem
      some (Function.update mem current { mem current with free := false }, some (addSz current H))
    else allocLoop H splits size fuel mem (mem current).next

/-- `block->free = true` for the header in front of payload offset `p` -/
def markFree (H : ℕ) (mem : ℕ → MemBlock) (p : ℕ) : ℕ → MemBlock :=
  Function.update mem (subSz p H) { mem (subSz p H) with free := true }

/-- a client write to the `n` bytes from `p` on -/
def scribble (H : ℕ) (mp : MemPool) (p n : ℕ) (junk : ℕ → Junk) : MemPool :=
  { mp with mem := fun o => if max p o < min (p + n) (o + H) then ⟨(junk o).size, (junk o).next, (junk o).free⟩
                            else mp.mem o }

/-! ## memorypoolSLL.c -/

namespace SllC

/-- `sizeof(MemBlock)` on a 64-bit machine -/
def sizeofMemBlock : ℕ := 24

def mempoolInit (H : ℕ) (mem : ℕ → MemBlock) (size : ℕ) : MemPool :=
  if size ≤ H then ⟨mem, 0, none⟩ else ⟨Function.update mem 0 ⟨subSz size H, none, true⟩, size, some 0⟩

def mempoolAlloc (H : ℕ) (mp : MemPool) (size : ℕ) : Option (MemPool × Option ℕ) :=
  match mp.head with
  | none => some (mp, none)
  | some head =>
    (allocLoop H (fun size avail => addSz size H < avail) size maxSteps mp.mem (some head)).map fun r =>
      ({ mp with mem := r.1 }, r.2)

/-- the coalescing loop: after a merge `continue` stays on `current` -/
def coalesceLoop (H : ℕ) : ℕ → (ℕ → MemBlock) → Option ℕ → Option (ℕ → MemBlock)
  | 0, _, _ => none
  | _ + 1, mem, none => some mem
  | fuel + 1, mem, some current =>
    match (mem current).next with
    | none => coalesceLoop H fuel mem none
    | some next =>
      if (mem current).free && (mem next).free then
        coalesceLoop H fuel (Function.update mem current
          { mem current with size := addSz (mem current).size (addSz H (mem next).size), next := (mem next).next })
          (some current)
      else coalesceLoop H fuel mem (some next)

def mempoolFree (H : ℕ) (mp : MemPool) (ptr : Option ℕ) : Option MemPool :=
  match ptr, mp.head with
  | none, _ => some mp
  | some _, none => some mp
  | some p, some head =>
    (coalesceLoop H maxSteps (markFree H mp.mem p) (some head)).map fun mem => { mp with mem := mem }

def pool (H : ℕ) : Allocator MemPool := ⟨id, mempoolAlloc H, mempoolFree H, scribble H⟩

end SllC

/-! ## memorypoolSLL.cpp -/

namespace SllCpp

def sizeofMemBlock : ℕ := 24

/-- the constructor: no check of `size` -/
def memPool (H : ℕ) (mem : ℕ → MemBlock) (size : ℕ) : MemPool :=
  ⟨Function.update mem 0 ⟨subSz size H, none, true⟩, size, some 0⟩

def alloc (H : ℕ) (mp : MemPool) (size : ℕ) : Option (MemPool × Option ℕ) :=
  (allocLoop H (fun size avail => addSz size H < avail) size maxSteps mp.mem mp.head).map fun r =>
    ({ mp with mem := r.1 }, r.2)

/-- the coalescing loop: `current = current->next` also after a merge -/
def coalesceLoop (H : ℕ) : ℕ → (ℕ → MemBlock) → Option ℕ → Option (ℕ → MemBlock)
  | 0, _, _ => none
  | _ + 1, mem, none => some mem
  | fuel + 1, mem, some current =>
    match (mem current).next with
    | none => coalesceLoop H fuel mem none
    | some next =>
      if (mem current).free && (mem next).free then
        coalesceLoop H fuel (Function.update mem current
          { mem current with size := addSz (mem current).size (addSz (mem next).size H), next := (mem next).next })
          (mem next).next
      else coalesceLoop H fuel mem (some next)

/-- `free` dereferences its argument unchecked: NULL is a wild access -/
def free (H : ℕ) (mp : MemPool) (ptr : Option ℕ) : Option MemPool :=
  match ptr with
  | none => none
  | some p => (coalesceLoop H maxSteps (markFree H mp.mem p) mp.head).map fun mem => { mp with mem := mem }

def pool (H : ℕ) : Allocator MemPool := ⟨id, alloc H, free H, scribble H⟩

end SllCpp

/-! ## memorypool.c -/

namespace Aligned

def poolSize : ℕ := 1024

/-- `sizeof(mem_block_t)`: size_t, uint8_t with padding, pointer -/
def sizeofMemBlock : ℕ := 24

/-- `ALIGN4(x)`: `(x + 3) & ~3`, where `~3` is widened to a size_t -/
def align4 (x : ℕ) : ℕ := addSz x 3 &&& (2 ^ 64 - 4)

def mempoolInit (mem : ℕ → MemBlock) : MemPool :=
  ⟨Function.update mem 0 ⟨subSz poolSize sizeofMemBlock, none, true⟩, poolSize, some 0⟩

def mempoolAlloc (mp : MemPool) (reqSize : ℕ) : Option (MemPool × Option ℕ) :=
  (allocLoop sizeofMemBlock (fun size avail => addSz (addSz size sizeofMemBlock) 4 ≤ avail) (align4 reqSize) maxSteps
    mp.mem mp.head).map fun r => ({ mp with mem := r.1 }, r.2)

/-- the coalescing loop: `while (current && current->next)` -/
def coalesceLoop : ℕ → (ℕ → MemBlock) → Option ℕ → Option (ℕ → MemBlock)
  | 0, _, _ => none
  | _ + 1, mem, none => some mem
  | fuel + 1, mem, some current =>
    match (mem current).next with
    | none => some mem
    | some next =>
      if (mem current).free && (mem next).free then
        coalesceLoop fuel (Function.update mem current
          { mem current with
            size := addSz (mem current).size (addSz sizeofMemBlock (mem next).size), next := (mem next).next })
          (some current)
      else coalesceLoop fuel mem (some next)

def mempoolFree (mp : MemPool) (ptr : Option ℕ) : Option MemPool :=
  match ptr with
  | none => some mp
  | some p =>
    (coalesceLoop maxSteps (markFree sizeofMemBlock mp.mem p) mp.head).map fun mem => { mp with mem := mem }

def pool : Allocator MemPool := ⟨align4, mempoolAlloc, mempoolFree, scribble sizeofMemBlock⟩

end Aligned

/-! ## Headers that list blocks -/

/-- where a list of blocks starts -/
def first (bs : List Block) : Option ℕ := bs.head?.map Block.off

/-- the headers in memory are those of the blocks, and each `next` is the block after -/
def Listed (mem : ℕ → MemBlock) : List Block → Prop
  | [] => True
  | b :: bs => mem b.off = ⟨b.size, first bs, b.free⟩ ∧ Listed mem bs

theorem first_eq_none {bs : List Block} : first bs = none ↔ bs = [] := by
  cases bs <;> simp [first]

/-- a block in front, which is not written to -/
theorem Listed.keep {mem mem' : ℕ → MemBlock} {b : Block} {bs bs' : List Block} (hl : Listed mem' bs')
    (hb : mem b.off = ⟨b.size, first bs, b.free⟩) (hframe : mem' b.off = mem b.off) (hfirst : first bs' = first bs) :
    Listed mem' (b :: bs') :=
  ⟨by rw [hframe, hb, hfirst], hl⟩

theorem Listed.frame {mem mem' : ℕ → MemBlock} {bs : List Block} (h : Listed mem bs)
    (heq : ∀ b ∈ bs, mem' b.off = mem b.off) : Listed mem' bs := by
  induction bs with
  | nil => trivial
  | cons b bs ih =>
    exact ⟨by rw [heq b List.mem_cons_self]; exact h.1, ih h.2 fun c hc => heq c (List.mem_cons_of_mem _ hc)⟩

/-- **A list of headers can be read in one way only.** -/
theorem Listed.unique {mem : ℕ → MemBlock} {bs bs' : List Block} (h : Listed mem bs) (h' : Listed mem bs')
    (hf : first bs = first bs') : bs = bs' := by
  induction bs generalizing bs' with
  | nil => exact (first_eq_none.1 hf.symm).symm
  | cons b bs ih =>
    cases bs' with
    | nil => simp [first] at hf
    | cons c cs =>
      have hoff : b.off = c.off := by simpa [first] using hf
      have hhdr := h.1.symm.trans (hoff ▸ h'.1)
      simp only [MemBlock.mk.injEq] at hhdr
      obtain ⟨hsize, hnext, hfree⟩ := hhdr
      rw [ih h.2 h'.2 hnext]
      cases b
      cases c
      simp_all

/-- changing a header in front of a tiling does not disturb it -/
theorem Listed.update_before {mem : ℕ → MemBlock} {H a e : ℕ} {bs : List Block} (h : Listed mem bs)
    (ht : Tiles H a bs e) {o : ℕ} (ho : o < a) (v : MemBlock) : Listed (Function.update mem o v) bs := by
  refine h.frame fun b hb => ?_
  have hoff : b.off ≠ o := by
    have := (ht.mem hb).1
    omega
  exact Function.update_of_ne hoff v mem

/-- marking a block free in memory is marking it free in the list -/
theorem Listed.mark {mem : ℕ → MemBlock} {H a e : ℕ} (hH : 0 < H) (he : e < 2 ^ 64) {as cs : List Block} {b : Block}
    (h : Listed mem (as ++ b :: cs)) (ht : Tiles H a (as ++ b :: cs) e) :
    Listed (markFree H mem (b.off + H)) (as ++ freed b :: cs) := by
  have hb := ht.mem (b := b) (by simp)
  have hoff : subSz (b.off + H) H = b.off := by rw [subSz_eq (by omega) (by omega)]; omega
  have hfirst : ∀ l, first (l ++ freed b :: cs) = first (l ++ b :: cs) := by
    intro l; cases l <;> rfl
  unfold markFree
  rw [hoff]
  clear hb hoff
  induction as generalizing a with
  | nil =>
    refine ⟨?_, ?_⟩
    · rw [h.1]; simp [freed]
    · refine h.2.update_before ht.2 ?_ _
      omega
  | cons x as ih =>
    have hx : x.off ≠ b.off := (ht.off_ne hH).1 x List.mem_cons_self
    have hmem : mem x.off = ⟨x.size, first (as ++ b :: cs), x.free⟩ := h.1
    refine ⟨?_, ih h.2 ht.2⟩
    rw [Function.update_of_ne hx, hmem, ← hfirst]
    rfl

/-! ## The allocation loop takes the first fit -/

theorem carve_first (P : Policy) (n : ℕ) (b : Block) (bs : List Block) :
    first (carve P n b ++ bs) = some b.off := by
  unfold carve
  split_ifs <;> rfl

/-- the branch that hands out `b`: the headers become those of the carved block -/
theorem take_listed {P : Policy} {mem : ℕ → MemBlock} {n e : ℕ} {b : Block} {bs : List Block} (he : e < 2 ^ 64)
    (ht : Tiles P.H b.off (b :: bs) e) (h : Listed mem (b :: bs)) (hn : n ≤ b.size) :
    let mem' := if P.splits n (mem b.off).size then split P.H n mem b.off else mem
    Listed (Function.update mem' b.off { mem' b.off with free := false }) (carve P n b ++ bs) ∧
      ∀ o < b.off, mem' o = mem o := by
  intro mem'
  obtain ⟨hb, hbs⟩ := h
  have hend := ht.2.le
  have hsize : (mem b.off).size = b.size := by rw [hb]
  have hnext : (mem b.off).next = first bs := by rw [hb]
  by_cases hs : P.splits n b.size = true
  · have hroom := P.room n b.size hs
    have hpos := P.pos
    have hnew : addSz (addSz b.off P.H) n = b.off + P.H + n := by
      rw [addSz_eq (a := b.off) (by omega), addSz_eq (by omega)]
    have hrest : subSz (subSz b.size n) P.H = b.size - n - P.H := by
      rw [subSz_eq (a := b.size) hn (by omega), subSz_eq (by omega) (by omega)]
    have hmem : mem' = Function.update (Function.update mem (b.off + P.H + n) ⟨b.size - n - P.H, first bs, true⟩) b.off
        { mem b.off with size := n, next := some (b.off + P.H + n) } := by
      simp only [mem', hsize, hs, if_true, split, hnew, hnext, hrest]
      rw [Function.update_of_ne (by omega)]
    have hcarve : carve P n b = [⟨b.off, n, false⟩, ⟨b.off + P.H + n, b.size - n - P.H, true⟩] := by
      simp [carve, hs]
    rw [hcarve, hmem]
    refine ⟨⟨by simp [first], ?_, ?_⟩, fun o ho => ?_⟩
    · rw [Function.update_of_ne (by simp; omega), Function.update_of_ne (by simp; omega)]
      simp
    · refine hbs.frame fun c hc => ?_
      have hcoff := (ht.2.mem hc).1
      rw [Function.update_of_ne (by omega), Function.update_of_ne (by omega), Function.update_of_ne (by omega)]
    · rw [Function.update_of_ne (by omega), Function.update_of_ne (by omega)]
  · have hmem : mem' = mem := by simp only [mem', hsize]; rw [if_neg hs]
    have hcarve : carve P n b = [⟨b.off, b.size, false⟩] := by simp [carve, hs]
    rw [hcarve, hmem]
    refine ⟨⟨by simp [hb, first], hbs.update_before ht.2 ?_ _⟩, fun o _ => rfl⟩
    have := P.pos
    omega

/-- **First fit.** On headers that list a tiling the loop ends and returns what `allocate` returns, and the headers
then list the new blocks; headers in front of the tiling are not touched. -/
theorem allocLoop_spec {P : Policy} {splits : ℕ → ℕ → Bool} {n e : ℕ} (he : e < 2 ^ 64)
    (hsplits : ∀ s, n ≤ s → s + P.H ≤ e → splits n s = P.splits n s) (bs : List Block) (fuel : ℕ)
    (mem : ℕ → MemBlock) (a : ℕ) (ht : Tiles P.H a bs e) (h : Listed mem bs) (hfuel : bs.length < fuel) :
    ∃ mem', allocLoop P.H splits n fuel mem (first bs) = some (mem', (allocate P n bs).map Prod.fst) ∧
      Listed mem' (((allocate P n bs).map Prod.snd).getD bs) ∧
      first (((allocate P n bs).map Prod.snd).getD bs) = first bs ∧ ∀ o < a, mem' o = mem o := by
  induction bs generalizing fuel a with
  | nil =>
    obtain ⟨fuel, rfl⟩ : ∃ f, fuel = f + 1 := ⟨fuel - 1, by simp at hfuel; omega⟩
    exact ⟨mem, rfl, trivial, rfl, fun _ _ => rfl⟩
  | cons b bs ih =>
    obtain ⟨fuel, rfl⟩ : ∃ f, fuel = f + 1 := ⟨fuel - 1, by simp at hfuel; omega⟩
    have hb := h.1
    have hba : b.off = a := ht.1
    subst hba
    have hend := ht.2.le
    simp only [List.length_cons] at hfuel
    by_cases hfit : b.free = true ∧ n ≤ b.size
    · obtain ⟨hl, hframe⟩ := take_listed he ht h hfit.2
      have hall : allocate P n (b :: bs) = some (b.off + P.H, carve P n b ++ bs) := by
        simp [allocate, hfit.1, hfit.2]
      have hsp : splits n (mem b.off).size = P.splits n (mem b.off).size := by
        rw [hb]; exact hsplits b.size hfit.2 (by omega)
      refine ⟨_, ?_, by rw [hall]; exact hl, by rw [hall]; exact carve_first P n b bs, fun o ho => ?_⟩
      · have hcond : ((mem b.off).free && decide (n ≤ (mem b.off).size)) = true := by simp [hb, hfit.1, hfit.2]
        rw [hall]
        simp only [first, List.head?_cons, Option.map_some, allocLoop, hcond, if_true, hsp]
        rw [addSz_eq (by omega)]
      · rw [Function.update_of_ne (by omega)]; exact hframe o ho
    · obtain ⟨mem', hrun, hl, hf, hframe⟩ := ih fuel _ ht.2 h.2 (by omega)
      obtain ⟨hlist, hret⟩ := allocate_skip P bs hfit
      have hpos := P.pos
      refine ⟨mem', ?_, ?_, by rw [hlist]; rfl, fun o ho => hframe o (by omega)⟩
      · have hcond : ((mem b.off).free && decide (n ≤ (mem b.off).size)) = false := by
          rw [hb]; simpa using hfit
        rw [hret, ← hrun]
        show allocLoop P.H splits n (fuel + 1) mem (some b.off) = _
        rw [allocLoop, hcond, hb]
        rfl
      · rw [hlist]
        exact hl.keep hb (hframe b.off (by omega)) hf

/-! ## The coalescing loops -/

/-- the header update of a merge lists the joined block -/
theorem Listed.merge {mem : ℕ → MemBlock} {H a e : ℕ} (he : e < 2 ^ 64) {b c : Block} {bs : List Block} (hH : 0 < H)
    (h : Listed mem (b :: c :: bs)) (ht : Tiles H a (b :: c :: bs) e) :
    Listed (Function.update mem b.off
      { mem b.off with size := addSz (mem b.off).size (addSz H (mem c.off).size), next := (mem c.off).next })
      (join H b c :: bs) := by
  have hend := ht.2.2.le
  have hc := ht.2.1
  have hsum : addSz b.size (addSz H c.size) = b.size + (H + c.size) := by
    rw [addSz_eq (a := H) (by omega), addSz_eq (by omega)]
  refine ⟨?_, h.2.2.update_before ht.2.2 (by omega) _⟩
  rw [h.1, h.2.1]
  simp [join, hsum]

theorem join_tiles {H a e : ℕ} {b c : Block} {bs : List Block} (hb : b.free = true) (hc : c.free = true)
    (ht : Tiles H a (b :: c :: bs) e) : Tiles H a (join H b c :: bs) e :=
  (Joins.mk [] bs b c hb hc).tiles ht

/-- the coalesced list starts where the list starts -/
theorem first_coalesce (H : ℕ) (bs : List Block) : first (coalesce H bs) = first bs := by
  cases bs with
  | nil => rfl
  | cons b bs =>
    obtain ⟨c, l, he, -, hoff⟩ := absorb_head H b (coalesce H bs)
    rw [coalesce_cons, he]
    simp [first, hoff]

theorem first_coalesceOnce (H : ℕ) (bs : List Block) : first (coalesceOnce H bs) = first bs := by
  match bs with
  | [] => rfl
  | [b] => rfl
  | a :: b :: bs =>
    simp only [coalesceOnce]
    split_ifs <;> rfl

/-- a block that cannot join its neighbour stays as it is -/
theorem coalesce_skip (H : ℕ) {b c : Block} {bs : List Block} (hbc : ¬ (b.free = true ∧ c.free = true)) :
    coalesce H (b :: c :: bs) = b :: coalesce H (c :: bs) := by
  obtain ⟨x, l, hx, hfree, -⟩ := absorb_head H c (coalesce H bs)
  rw [coalesce_cons, coalesce_cons, hx]
  simp only [absorb, hfree]
  rw [if_neg (by simpa using hbc)]

/-- what the loops read of the first two headers -/
theorem Listed.front {mem : ℕ → MemBlock} {b c : Block} {bs : List Block} (h : Listed mem (b :: c :: bs)) :
    (mem b.off).next = some c.off ∧ (mem c.off).next = first bs ∧
      (((mem b.off).free && (mem c.off).free) = true ↔ b.free = true ∧ c.free = true) := by
  rw [h.1, h.2.1, Bool.and_eq_true]
  exact ⟨rfl, rfl, Iff.rfl⟩

/-- **`memorypoolSLL.c` coalesces fully**: the loop ends with headers that list the coalesced blocks. -/
theorem SllC.coalesceLoop_spec {H e : ℕ} (hH : 0 < H) (he : e < 2 ^ 64) (fuel : ℕ) (bs : List Block)
    (mem : ℕ → MemBlock) (a : ℕ) (ht : Tiles H a bs e) (h : Listed mem bs) (hfuel : bs.length < fuel) :
    ∃ mem', SllC.coalesceLoop H fuel mem (first bs) = some mem' ∧ Listed mem' (coalesce H bs) ∧
      ∀ o < a, mem' o = mem o := by
  induction fuel generalizing bs mem a with
  | zero => omega
  | succ fuel ih =>
    match bs with
    | [] => exact ⟨mem, rfl, trivial, fun _ _ => rfl⟩
    | [b] =>
      have hnext : (mem b.off).next = none := by rw [h.1]; rfl
      refine ⟨mem, ?_, h, fun _ _ => rfl⟩
      show SllC.coalesceLoop H (fuel + 1) mem (some b.off) = some mem
      rw [SllC.coalesceLoop, hnext]
      obtain ⟨fuel, rfl⟩ : ∃ f, fuel = f + 1 := ⟨fuel - 1, by simp at hfuel; omega⟩
      rfl
    | b :: c :: bs =>
      obtain ⟨hnext, -, hboth⟩ := h.front
      have hba := ht.1
      simp only [List.length_cons] at hfuel
      by_cases hbc : b.free = true ∧ c.free = true
      · obtain ⟨mem', hrun, hl, hframe⟩ := ih (join H b c :: bs) _ a (join_tiles hbc.1 hbc.2 ht) (h.merge he hH ht)
          (by simp only [List.length_cons]; omega)
        refine ⟨mem', ?_, by rw [coalesce_join H hbc.1 hbc.2]; exact hl, fun o ho => ?_⟩
        · show SllC.coalesceLoop H (fuel + 1) mem (some b.off) = some mem'
          have hcond := hboth.2 hbc
          rw [SllC.coalesceLoop, hnext]
          simp only [hcond, if_true]
          exact hrun
        · rw [hframe o ho, Function.update_of_ne (by omega)]
      · obtain ⟨mem', hrun, hl, hframe⟩ := ih (c :: bs) mem _ ht.2 h.2 (by simp only [List.length_cons]; omega)
        refine ⟨mem', ?_, ?_, fun o ho => hframe o (by omega)⟩
        · show SllC.coalesceLoop H (fuel + 1) mem (some b.off) = some mem'
          rw [SllC.coalesceLoop, hnext]
          dsimp only
          rw [if_neg fun hfree => hbc (hboth.1 hfree)]
          exact hrun
        · rw [coalesce_skip H hbc]
          exact hl.keep h.1 (hframe b.off (by omega)) (first_coalesce H (c :: bs))

/-- **`memorypoolSLL.cpp` makes a single pass**: the loop ends with headers that list the blocks after one pass. -/
theorem SllCpp.coalesceLoop_spec {H e : ℕ} (hH : 0 < H) (he : e < 2 ^ 64) (fuel : ℕ) (bs : List Block)
    (mem : ℕ → MemBlock) (a : ℕ) (ht : Tiles H a bs e) (h : Listed mem bs) (hfuel : bs.length < fuel) :
    ∃ mem', SllCpp.coalesceLoop H fuel mem (first bs) = some mem' ∧ Listed mem' (coalesceOnce H bs) ∧
      ∀ o < a, mem' o = mem o := by
  induction fuel generalizing bs mem a with
  | zero => omega
  | succ fuel ih =>
    match bs with
    | [] => exact ⟨mem, rfl, trivial, fun _ _ => rfl⟩
    | [b] =>
      have hnext : (mem b.off).next = none := by rw [h.1]; rfl
      refine ⟨mem, ?_, h, fun _ _ => rfl⟩
      show SllCpp.coalesceLoop H (fuel + 1) mem (some b.off) = some mem
      rw [SllCpp.coalesceLoop, hnext]
      obtain ⟨fuel, rfl⟩ : ∃ f, fuel = f + 1 := ⟨fuel - 1, by simp at hfuel; omega⟩
      rfl
    | b :: c :: bs =>
      obtain ⟨hnext, hafter, hboth⟩ := h.front
      have hba := ht.1
      have hca := ht.2.1
      simp only [List.length_cons] at hfuel
      by_cases hbc : b.free = true ∧ c.free = true
      · have hm := h.merge he hH ht
        have hjt := join_tiles hbc.1 hbc.2 ht
        obtain ⟨mem', hrun, hl, hframe⟩ := ih bs _ _ hjt.2 hm.2 (by omega)
        have hjoff : (join H b c).off = b.off := rfl
        rw [hjoff] at hframe
        refine ⟨mem', ?_, ?_, fun o ho => ?_⟩
        · show SllCpp.coalesceLoop H (fuel + 1) mem (some b.off) = some mem'
          have hcond := hboth.2 hbc
          have hsum : addSz (mem c.off).size H = addSz H (mem c.off).size := by unfold addSz; rw [Nat.add_comm]
          rw [SllCpp.coalesceLoop, hnext]
          simp only [hcond, if_true, hsum]
          rw [hafter] at hrun ⊢
          exact hrun
        · simp only [coalesceOnce, hbc.1, hbc.2, Bool.and_self, if_true]
          exact hl.keep hm.1 (hframe b.off (by omega)) (first_coalesceOnce H bs)
        · rw [hframe o (by omega), Function.update_of_ne (by omega)]
      · obtain ⟨mem', hrun, hl, hframe⟩ := ih (c :: bs) mem _ ht.2 h.2 (by simp only [List.length_cons]; omega)
        refine ⟨mem', ?_, ?_, fun o ho => hframe o (by omega)⟩
        · show SllCpp.coalesceLoop H (fuel + 1) mem (some b.off) = some mem'
          rw [SllCpp.coalesceLoop, hnext]
          dsimp only
          rw [if_neg fun hfree => hbc (hboth.1 hfree)]
          exact hrun
        · rw [coalesceOnce, if_neg (by simpa using hbc)]
          exact hl.keep h.1 (hframe b.off (by omega)) (first_coalesceOnce H (c :: bs))

/-- the loop of `memorypool.c` stops one test earlier and does the same -/
theorem Aligned.coalesceLoop_of_sllC (fuel : ℕ) (mem : ℕ → MemBlock) (cur : Option ℕ) (mem' : ℕ → MemBlock)
    (h : SllC.coalesceLoop Aligned.sizeofMemBlock fuel mem cur = some mem') :
    Aligned.coalesceLoop fuel mem cur = some mem' := by
  induction fuel generalizing mem cur with
  | zero => exact absurd h (by simp [SllC.coalesceLoop])
  | succ fuel ih =>
    cases cur with
    | none => exact h
    | some current =>
      simp only [SllC.coalesceLoop, Aligned.coalesceLoop] at h ⊢
      cases hn : (mem current).next with
      | none =>
        rw [hn] at h
        cases fuel with
        | zero => exact absurd h (by simp [SllC.coalesceLoop])
        | succ fuel => exact h
      | some next =>
        rw [hn] at h
        dsimp only at h ⊢
        split_ifs at h ⊢ with hf
        · exact ih _ _ h
        · exact ih _ _ h

/-! ## The pools implement first fit -/

/-- split when more than a header is left, coalesce fully -/
def sllPolicy (H : ℕ) (hH : 0 < H) : Policy where
  H := H
  bytes := id
  splits n s := n + H < s
  tidy := coalesce H
  pos := hH
  room n s h := by simp only [decide_eq_true_eq] at h; omega
  merges := coalesce_merges H

/-- as `sllPolicy`, with a single coalescing pass -/
def onePassPolicy (H : ℕ) (hH : 0 < H) : Policy :=
  { sllPolicy H hH with tidy := coalesceOnce H, merges := coalesceOnce_merges H }

/-- requests rounded to 4 bytes; split when a header and 4 bytes are left -/
def alignedPolicy : Policy where
  H := Aligned.sizeofMemBlock
  bytes := Aligned.align4
  splits n s := n + Aligned.sizeofMemBlock + 4 ≤ s
  tidy := coalesce Aligned.sizeofMemBlock
  pos := by decide
  room n s h := by simp only [decide_eq_true_eq] at h; omega
  merges := coalesce_merges _

/-- a pool of size `e` whose list from `head` is `bs` -/
structure Pool (e : ℕ) (mp : MemPool) (bs : List Block) : Prop where
  size : mp.poolSize = e
  head : mp.head = first bs
  listed : Listed mp.mem bs

/-- a client write inside a payload leaves the listed headers alone -/
theorem scribble_pool {H e : ℕ} {mp : MemPool} {bs : List Block} (h : Pool e mp bs) (p n : ℕ) (junk : ℕ → Junk)
    (hoff : ∀ b ∈ bs, p + n ≤ b.off ∨ b.off + H ≤ p) : Pool e (scribble H mp p n junk) bs := by
  refine ⟨h.size, h.head, h.listed.frame fun b hb => ?_⟩
  have := hoff b hb
  simp only [scribble]
  rw [if_neg (by omega)]

/-- number of blocks against the loop bound -/
theorem length_lt_maxSteps {H a e : ℕ} (hH : 0 < H) (he : e < 2 ^ 64) {bs : List Block} (ht : Tiles H a bs e) :
    bs.length < maxSteps := by
  have hlen := ht.length_le
  have : bs.length ≤ bs.length * H := Nat.le_mul_of_pos_right _ hH
  unfold maxSteps
  omega

theorem alloc_pool (P : Policy) (splits : ℕ → ℕ → Bool) (n : ℕ) {e : ℕ} (he : e < 2 ^ 64)
    (hsplits : ∀ s, n ≤ s → s + P.H ≤ e → splits n s = P.splits n s) {mp : MemPool} {bs : List Block}
    (ht : Tiles P.H 0 bs e) (h : Pool e mp bs) :
    ∃ mem', allocLoop P.H splits n maxSteps mp.mem mp.head = some (mem', (allocate P n bs).map Prod.fst) ∧
      Pool e { mp with mem := mem' } (((allocate P n bs).map Prod.snd).getD bs) := by
  obtain ⟨mem', hrun, hl, hf, -⟩ :=
    allocLoop_spec he hsplits bs maxSteps mp.mem 0 ht h.listed (length_lt_maxSteps P.pos he ht)
  exact ⟨mem', by rw [h.head]; exact hrun, h.size, by rw [hf]; exact h.head, hl⟩

theorem first_freed (as cs : List Block) (b : Block) : first (as ++ freed b :: cs) = first (as ++ b :: cs) := by
  cases as <;> rfl

theorem freed_tiles {H a e : ℕ} {as cs : List Block} {b : Block} (ht : Tiles H a (as ++ b :: cs) e) :
    Tiles H a (as ++ freed b :: cs) e := by
  rw [tiles_append] at ht ⊢
  exact ht

/-- the split test of `memorypoolSLL.c` and `memorypoolSLL.cpp` does not wrap around inside a pool -/
theorem sll_splits {H n s e : ℕ} (he : e < 2 ^ 64) (hn : n ≤ s) (hs : s + H ≤ e) :
    decide (addSz n H < s) = decide (n + H < s) := by
  rw [addSz_eq (by omega)]

/-- **`memorypoolSLL.c` implements first fit with full coalescing.** -/
theorem sllC_refines (H e : ℕ) (hH : 0 < H) (he : e < 2 ^ 64) :
    Refines (sllPolicy H hH) e (SllC.pool H) (Pool e) where
  bytes := rfl
  alloc mp bs n ht h := by
    cases hhead : mp.head with
    | none =>
      have hnil : bs = [] := first_eq_none.1 (h.head.symm.trans hhead)
      subst hnil
      exact ⟨mp, by simp [SllC.pool, SllC.mempoolAlloc, hhead, allocate], h⟩
    | some head =>
      obtain ⟨mem', hrun, hp⟩ := alloc_pool (sllPolicy H hH) (fun n s => addSz n H < s) n he
        (fun s hn hs => sll_splits he hn hs) ht h
      refine ⟨_, ?_, hp⟩
      have hrun' : SllC.mempoolAlloc H mp n = Option.map (fun r => ({ mp with mem := r.1 }, r.2))
          (allocLoop H (fun n s => addSz n H < s) n maxSteps mp.mem mp.head) := by
        rw [SllC.mempoolAlloc, hhead]
      exact hrun'.trans (congrArg (Option.map _) hrun)
  free mp as b cs ht _ h hb := by
    have ht' := freed_tiles ht
    obtain ⟨mem', hrun, hl, -⟩ := SllC.coalesceLoop_spec hH he maxSteps _ _ 0 ht' (h.listed.mark hH he ht)
      (length_lt_maxSteps hH he ht')
    rw [first_freed, ← h.head] at hrun
    obtain ⟨o, hhead⟩ : ∃ o, mp.head = some o := by
      rw [h.head]
      cases as <;> exact ⟨_, rfl⟩
    refine ⟨{ mp with mem := mem' }, ?_, h.size, ?_, hl⟩
    · have hfree : SllC.mempoolFree H mp (some (b.off + H)) = Option.map (fun mem => { mp with mem := mem })
          (SllC.coalesceLoop H maxSteps (markFree H mp.mem (b.off + H)) mp.head) := by
        simp only [SllC.mempoolFree, hhead]
      exact hfree.trans (congrArg (Option.map _) hrun)
    · show mp.head = first (coalesce H _)
      rw [first_coalesce, first_freed]; exact h.head
  scribble mp bs p n junk _ h hoff := scribble_pool h p n junk hoff

/-- **`memorypoolSLL.cpp` implements first fit with one coalescing pass.** -/
theorem sllCpp_refines (H e : ℕ) (hH : 0 < H) (he : e < 2 ^ 64) :
    Refines (onePassPolicy H hH) e (SllCpp.pool H) (Pool e) where
  bytes := rfl
  alloc mp bs n ht h := by
    obtain ⟨mem', hrun, hp⟩ := alloc_pool (onePassPolicy H hH) (fun n s => addSz n H < s) n he
      (fun s hn hs => sll_splits he hn hs) ht h
    exact ⟨_, congrArg (Option.map _) hrun, hp⟩
  free mp as b cs ht _ h hb := by
    have ht' := freed_tiles ht
    obtain ⟨mem', hrun, hl, -⟩ := SllCpp.coalesceLoop_spec hH he maxSteps _ _ 0 ht' (h.listed.mark hH he ht)
      (length_lt_maxSteps hH he ht')
    rw [first_freed, ← h.head] at hrun
    refine ⟨{ mp with mem := mem' }, congrArg (Option.map _) hrun, h.size, ?_, hl⟩
    show mp.head = first (coalesceOnce H _)
    rw [first_coalesceOnce, first_freed]; exact h.head
  scribble mp bs p n junk _ h hoff := scribble_pool h p n junk hoff

/-- **`memorypool.c` implements first fit on requests rounded to 4 bytes, with full coalescing.** -/
theorem aligned_refines : Refines alignedPolicy Aligned.poolSize Aligned.pool (Pool Aligned.poolSize) where
  bytes := rfl
  alloc mp bs n ht h := by
    have hsplits : ∀ s, Aligned.align4 n ≤ s → s + Aligned.sizeofMemBlock ≤ Aligned.poolSize →
        decide (addSz (addSz (Aligned.align4 n) Aligned.sizeofMemBlock) 4 ≤ s) =
          decide (Aligned.align4 n + Aligned.sizeofMemBlock + 4 ≤ s) := by
      intro s hn hs
      have h24 : Aligned.sizeofMemBlock = 24 := rfl
      have h1024 : Aligned.poolSize = 1024 := rfl
      rw [addSz_eq (a := Aligned.align4 n) (by omega), addSz_eq (by omega)]
    obtain ⟨mem', hrun, hp⟩ := alloc_pool alignedPolicy
      (fun n s => addSz (addSz n Aligned.sizeofMemBlock) 4 ≤ s) (Aligned.align4 n) (by decide) hsplits ht h
    exact ⟨_, congrArg (Option.map _) hrun, hp⟩
  free mp as b cs ht _ h hb := by
    have hH : 0 < Aligned.sizeofMemBlock := by decide
    have he : Aligned.poolSize < 2 ^ 64 := by decide
    have ht' := freed_tiles ht
    obtain ⟨mem', hrun, hl, -⟩ := SllC.coalesceLoop_spec hH he maxSteps _ _ 0 ht' (h.listed.mark hH he ht)
      (length_lt_maxSteps hH he ht')
    rw [first_freed, ← h.head] at hrun
    refine ⟨{ mp with mem := mem' }, congrArg (Option.map _) (Aligned.coalesceLoop_of_sllC _ _ _ _ hrun), h.size, ?_, hl⟩
    show mp.head = first (coalesce Aligned.sizeofMemBlock _)
    rw [first_coalesce, first_freed]; exact h.head
  scribble mp bs p n junk _ h hoff := scribble_pool h p n junk hoff

/-! ## Fresh pools -/

theorem SllC.init_pool (H : ℕ) (mem : ℕ → MemBlock) (size : ℕ) (hsz : H < size) (hlt : size < 2 ^ 64) :
    Pool size (SllC.mempoolInit H mem size) (whole H size) := by
  rw [SllC.mempoolInit, if_neg (by omega), subSz_eq hsz.le hlt]
  exact ⟨rfl, rfl, by simp [Listed, whole, first]⟩

theorem SllC.init_pool_small (H : ℕ) (mem : ℕ → MemBlock) (size : ℕ) (hsz : size ≤ H) :
    Pool 0 (SllC.mempoolInit H mem size) [] := by
  rw [SllC.mempoolInit, if_pos hsz]
  exact ⟨rfl, rfl, trivial⟩

theorem SllCpp.init_pool (H : ℕ) (mem : ℕ → MemBlock) (size : ℕ) (hsz : H ≤ size) (hlt : size < 2 ^ 64) :
    Pool size (SllCpp.memPool H mem size) (whole H size) := by
  rw [SllCpp.memPool, subSz_eq hsz hlt]
  exact ⟨rfl, rfl, by simp [Listed, whole, first]⟩

theorem Aligned.init_pool (mem : ℕ → MemBlock) :
    Pool Aligned.poolSize (Aligned.mempoolInit mem) (whole Aligned.sizeofMemBlock Aligned.poolSize) :=
  ⟨rfl, rfl, by simp [Listed, whole, first, Aligned.mempoolInit, subSz, Aligned.poolSize, Aligned.sizeofMemBlock]⟩

/-! ## Whole runs of memorypool.c -/

/-- a run of `memorypool.c` from a fresh pool: the headers list the blocks of the first-fit allocator -/
theorem aligned_run (mem : ℕ → MemBlock) (ops : List Op) :
    ∃ s t, run Aligned.pool (fresh (Aligned.mempoolInit mem)) ops = some s ∧
      run (spec alignedPolicy) (fresh (whole Aligned.sizeofMemBlock Aligned.poolSize)) ops = some t ∧
      Agrees (Pool Aligned.poolSize) s t ∧ Inv alignedPolicy Aligned.poolSize t :=
  run_refines aligned_refines ops (fun _ _ => rfl) (inv_whole alignedPolicy Aligned.poolSize (by decide))
    (fresh_agrees (Aligned.init_pool mem))

theorem Aligned.four_dvd_align4 (x : ℕ) : 4 ∣ Aligned.align4 x := by
  have h : Aligned.align4 x % 2 ^ 2 = 0 := by
    rw [Aligned.align4, Nat.and_mod_two_pow]
    simp
  exact Nat.dvd_of_mod_eq_zero h

/-- **`memorypool.c` in every run.** After `mempool_init` and any sequence of allocations of any size and frees of NULL
or of pointers held, the calls have returned, the list from `head` tiles the 1024 bytes, all block sizes and all
offsets handed out are multiples of 4, the allocated blocks are the pointers held, one for one, and no two neighbours
are free. -/
theorem aligned_runs (mem : ℕ → MemBlock) (ops : List Op) :
    ∃ s bs, run Aligned.pool (fresh (Aligned.mempoolInit mem)) ops = some s ∧
      s.pool.head = first bs ∧ Listed s.pool.mem bs ∧ Tiles Aligned.sizeofMemBlock 0 bs 1024 ∧
      (∀ b ∈ bs, 4 ∣ b.size) ∧ (∀ p, some p ∈ s.rets → 4 ∣ p) ∧
      (s.live.map Prod.fst).Nodup ∧
      (s.live.map Prod.fst).Perm ((used bs).map fun b => b.off + Aligned.sizeofMemBlock) ∧ Coalesced bs := by
  have hg : GrainedSt 4 (fresh (whole Aligned.sizeofMemBlock Aligned.poolSize)) :=
    ⟨by simp [fresh, whole, Grained, Aligned.sizeofMemBlock, Aligned.poolSize], by simp [fresh]⟩
  obtain ⟨s, t, hs, ht, hagree, hi⟩ := aligned_run mem ops
  have hgt := run_grained (P := alignedPolicy) (show 4 ∣ 24 by decide) Aligned.four_dvd_align4 ops hg ht
  refine ⟨s, t.pool, hs, hagree.pool.head, hagree.pool.listed, hi.tiles, fun b hb => (hgt.blocks b hb).2, ?_, ?_, ?_,
    hi.coal rfl⟩
  · rw [hagree.rets]; exact hgt.rets
  · rw [hagree.live]; exact hi.owns.live_nodup alignedPolicy.pos hi.tiles
  · rw [hagree.live]; exact hi.owns.ptrs

/-! ## What a request of memorypool.c is given -/

/-- `ALIGN4` without bit operations: 4 times a quarter of the sum, after the sum has wrapped around -/
theorem Aligned.align4_eq (x : ℕ) : Aligned.align4 x = 4 * ((x + 3) % 2 ^ 64 / 4) := by
  have hdiv : Aligned.align4 x / 2 ^ 2 = (x + 3) % 2 ^ 64 / 2 ^ 2 := by
    calc Aligned.align4 x / 2 ^ 2
        = addSz x 3 / 2 ^ 2 &&& (2 ^ 64 - 4) / 2 ^ 2 := by rw [Aligned.align4, Nat.and_div_two_pow]
      _ = addSz x 3 / 2 ^ 2 % 2 ^ 62 := Nat.and_two_pow_sub_one_eq_mod _ 62
      _ = (x + 3) % 2 ^ 64 / 2 ^ 2 := by unfold addSz; omega
  have hdvd := Aligned.four_dvd_align4 x
  omega

/-- what `mempool_alloc` owes a request: a returned block is large enough, and NULL is returned when no free block of
the list is -/
def Aligned.Serves (mp : MemPool) (bs : List Block) (reqSize : ℕ) : Prop :=
  ∃ mp' r, Aligned.mempoolAlloc mp reqSize = some (mp', r) ∧
    (∀ p, r = some p → reqSize ≤ (mp'.mem (subSz p Aligned.sizeofMemBlock)).size) ∧
    ((∀ b ∈ bs, b.free = true → b.size < reqSize) → r = none)

theorem Listed.header {mem : ℕ → MemBlock} {bs : List Block} (h : Listed mem bs) {b : Block} (hb : b ∈ bs) :
    (mem b.off).size = b.size := by
  induction bs with
  | nil => simp at hb
  | cons c bs ih =>
    rcases List.mem_cons.1 hb with rfl | hb
    · rw [h.1]
    · exact ih h.2 hb

/-- **What a call returns**: NULL when no free block has the rounded bytes, else the header in front of the pointer says
at least the rounded bytes -/
theorem Aligned.alloc_returns {mp : MemPool} {bs : List Block} (ht : Tiles Aligned.sizeofMemBlock 0 bs Aligned.poolSize)
    (h : Pool Aligned.poolSize mp bs) (n : ℕ) :
    ∃ mp' r, Aligned.mempoolAlloc mp n = some (mp', r) ∧
      ((r = none ∧ ∀ b ∈ bs, ¬ (b.free = true ∧ Aligned.align4 n ≤ b.size)) ∨
        ∃ b ∈ bs, b.free = true ∧ Aligned.align4 n ≤ b.size ∧ r = some (b.off + Aligned.sizeofMemBlock) ∧
          Aligned.align4 n ≤ (mp'.mem (subSz (b.off + Aligned.sizeofMemBlock) Aligned.sizeofMemBlock)).size) := by
  obtain ⟨mp', hrun, hp⟩ := aligned_refines.alloc mp bs n ht h
  refine ⟨mp', _, hrun, ?_⟩
  rcases allocate_cases alignedPolicy (Aligned.align4 n) bs with ⟨hn, hno⟩ | ⟨as, b, cs, hbs, hb, hsz, hs⟩
  · left
    exact ⟨congrArg (Option.map Prod.fst) hn, hno⟩
  · right
    have hmem : b ∈ bs := by simp [hbs]
    have hend := ht.mem hmem
    have hlist : Listed mp'.mem (as ++ carve alignedPolicy (Aligned.align4 n) b ++ cs) := by
      have := hp.listed
      rw [show alignedPolicy.bytes n = Aligned.align4 n from rfl, hs] at this
      exact this
    obtain ⟨m, hm, hused⟩ := carve_used alignedPolicy (Aligned.align4 n) b hsz
    have hcar : (⟨b.off, m, false⟩ : Block) ∈ carve alignedPolicy (Aligned.align4 n) b :=
      (mem_used.1 (hused ▸ List.mem_singleton_self _)).1
    have hsize := hlist.header (b := ⟨b.off, m, false⟩) (by simp [hcar])
    have hoff : subSz (b.off + Aligned.sizeofMemBlock) Aligned.sizeofMemBlock = b.off := by
      have h1024 : Aligned.poolSize = 1024 := rfl
      rw [subSz_eq (by omega) (by omega)]
      omega
    refine ⟨b, hmem, hb, hsz, congrArg (Option.map Prod.fst) hs, ?_⟩
    rw [hoff, hsize]
    exact hm

/-- one call on a pool of 1024 bytes: a request that wraps around is rounded to 0 and takes the first free block -/
theorem Aligned.serves_iff {mp : MemPool} {bs : List Block} (ht : Tiles Aligned.sizeofMemBlock 0 bs Aligned.poolSize)
    (h : Pool Aligned.poolSize mp bs) {reqSize : ℕ} (hreq : reqSize < 2 ^ 64) :
    Aligned.Serves mp bs reqSize ↔ reqSize ≤ 2 ^ 64 - 4 ∨ ∀ b ∈ bs, b.free = false := by
  obtain ⟨mp', r, hrun, hret⟩ := Aligned.alloc_returns ht h reqSize
  have halign := Aligned.align4_eq reqSize
  constructor
  · intro hserves
    obtain ⟨mp1, r1, hrun1, -, hnull⟩ := hserves
    obtain ⟨rfl, rfl⟩ := Prod.mk.inj (Option.some.inj (hrun.symm.trans hrun1))
    by_contra hnot
    obtain ⟨hbig, hsome⟩ := not_or.1 hnot
    have hzero : Aligned.align4 reqSize = 0 := by omega
    have hsmall : ∀ b ∈ bs, b.free = true → b.size < reqSize := by
      intro b hb _
      have := (ht.mem hb).2
      have h1024 : Aligned.poolSize = 1024 := rfl
      omega
    rcases hret with ⟨-, hno⟩ | ⟨b, -, -, -, hr, -⟩
    · refine hsome fun b hb => ?_
      have := hno b hb
      rw [hzero] at this
      simpa using this
    · rw [hnull hsmall] at hr
      cases hr
  · intro hcond
    refine ⟨mp', r, hrun, ?_⟩
    rcases hret with ⟨rfl, -⟩ | ⟨b, hb, hfree, hsz, rfl, hsize⟩
    · exact ⟨by simp, fun _ => rfl⟩
    · have hup : reqSize ≤ Aligned.align4 reqSize := by
        rcases hcond with hle | hall
        · omega
        · rw [hall b hb] at hfree
          cases hfree
      refine ⟨fun p hp => ?_, fun hno => ?_⟩
      · obtain rfl := Option.some.inj hp
        exact hup.trans hsize
      · have := hno b hb hfree
        omega

/-- **When a request is served rightly.** In every state `memorypool.c` reaches, a request below 2^64 gets a block of at
least its size, and NULL when there is none, exactly when rounding it up does not wrap around or no block is free. The
three sizes from 2^64 - 3 on are rounded to 0 and get the first free block there is. -/
theorem aligned_serves_iff (mem : ℕ → MemBlock) (ops : List Op) :
    ∃ s bs, run Aligned.pool (fresh (Aligned.mempoolInit mem)) ops = some s ∧
      s.pool.head = first bs ∧ Listed s.pool.mem bs ∧
      ∀ reqSize < 2 ^ 64,
        (Aligned.Serves s.pool bs reqSize ↔ reqSize ≤ 2 ^ 64 - 4 ∨ ∀ b ∈ bs, b.free = false) := by
  obtain ⟨s, t, hs, -, hagree, hi⟩ := aligned_run mem ops
  exact ⟨s, t.pool, hs, hagree.pool.head, hagree.pool.listed, fun reqSize hreq =>
    Aligned.serves_iff hi.tiles hagree.pool hreq⟩

/-- the fresh pool, asked for 2^64 - 1 bytes, hands out its only block with 0 bytes in it -/
theorem aligned_request_wraps :
    Pool 1024 (Aligned.mempoolInit fun _ => ⟨0, none, false⟩) (whole Aligned.sizeofMemBlock 1024) ∧
      (∃ mp', Aligned.mempoolAlloc (Aligned.mempoolInit fun _ => ⟨0, none, false⟩) (2 ^ 64 - 1) = some (mp', some 24) ∧
        (mp'.mem 0).size = 0) ∧
      ¬ Aligned.Serves (Aligned.mempoolInit fun _ => ⟨0, none, false⟩) (whole Aligned.sizeofMemBlock 1024) (2 ^ 64 - 1) := by
  have hret : (Aligned.mempoolAlloc (Aligned.mempoolInit fun _ => ⟨0, none, false⟩) (2 ^ 64 - 1)).map
      (fun x => (x.2, (x.1.mem 0).size)) = some (some 24, 0) := by decide +kernel
  obtain ⟨⟨mp', r⟩, hrun, hx⟩ := Option.map_eq_some_iff.1 hret
  obtain ⟨rfl, hsize⟩ : r = some 24 ∧ (mp'.mem 0).size = 0 := Prod.mk.inj hx
  refine ⟨Aligned.init_pool _, ⟨mp', hrun, hsize⟩, fun hserves => ?_⟩
  obtain ⟨mp1, r1, hrun1, hbig, -⟩ := hserves
  obtain ⟨rfl, rfl⟩ := Prod.mk.inj (Option.some.inj (hrun.symm.trans hrun1))
  have hheader : subSz 24 Aligned.sizeofMemBlock = 0 := by decide
  have := hbig 24 rfl
  rw [hheader, hsize] at this
  omega

end Singly

end InterviewPrep.MemoryPool
