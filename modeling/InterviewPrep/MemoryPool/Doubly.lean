/-
The doubly linked memory pools: `memorypool/memorypoolDLL.c` and `memorypool/memorypoolDLL.cpp`.

As in `Singly`, memory is the headers by byte offset, pointers are offsets (NULL is `none`), sizes are taken mod 2^64
and a `while` loop gets `maxSteps` iterations. Headers have a `prev` pointer in addition, and `free` joins the freed
block with its next and its previous block only, without a scan.

The two files differ in their guards: the constructor of `memorypoolDLL.cpp` does not check the pool size.

Results: `dllC_refines`, `dllCpp_refines`: on a list without free neighbours the two local joins give the fully
coalesced list, so both files implement first fit with full coalescing, call by call (`FirstFit.Refines`), and every
`prev` stays the block before (`Linked`). `dllC_runs`, `dllC_restores` and `dllC_alloc_free_restores` say what that
gives for every run of `memorypoolDLL.c`.
-/
import Mathlib.Tactic
import InterviewPrep.Core.FirstFit
import InterviewPrep.MemoryPool.Singly

namespace InterviewPrep.MemoryPool.Doubly

open Blocks FirstFit
open Singly (first sllPolicy)

/-! ## Headers and operations -/

structure MemBlock where
  size : ℕ
  next : Option ℕ
  prev : Option ℕ
  free : Bool
deriving DecidableEq, Repr

structure MemPool where
  mem : ℕ → MemBlock
  poolSize : ℕ
  head : Option ℕ

/-- `if (block) block->prev = p` -/
def setPrev (mem : ℕ → MemBlock) (block p : Option ℕ) : ℕ → MemBlock :=
  match block with
  | none => mem
  | some o => Function.update mem o { mem o with prev := p }

/-- the split: a new free block after `size` payload bytes of `current`, linked both ways -/
def split (H size : ℕ) (mem : ℕ → MemBlock) (current : ℕ) : ℕ → MemBlock :=
  let newBlock := addSz (addSz current H) size
  let mem := Function.update mem newBlock
    ⟨subSz (subSz (mem current).size size) H, (mem current).next, some current, true⟩
  let mem := setPrev mem (mem current).next (some newBlock)
  Function.update mem current { mem current with next := some newBlock, size := size }

/-- `while (current != NULL)` of the allocation functions -/
def allocLoop (H size : ℕ) : ℕ → (ℕ → MemBlock) → Option ℕ → Option ((ℕ → MemBlock) × Option ℕ)
  | 0, _, _ => none
  | _ + 1, mem, none => some (mem, none)
  | fuel + 1, mem, some current =>
    if (mem current).free && size ≤ (mem current).size then
      let mem := if addSz size H < (mem current).size then split H size mem current else mem
      some (Function.update mem current { mem current with free := false }, some (addSz current H))
    else allocLoop H size fuel mem (mem current).next

/-- the block at `a` takes over its next block, at `b`: its bytes, its `next`, and the back link to it -/
def mergeNext (H : ℕ) (mem : ℕ → MemBlock) (a b : ℕ) : ℕ → MemBlock :=
  setPrev (Function.update mem a
    { mem a with size := addSz (mem a).size (addSz H (mem b).size), next := (mem b).next }) (mem b).next (some a)

/-- coalesce with the next block if it is free -/
def coalesceNext (H : ℕ) (mem : ℕ → MemBlock) (block : ℕ) : ℕ → MemBlock :=
  match (mem block).next with
  | none => mem
  | some next => if (mem next).free then mergeNext H mem block next else mem

/-- coalesce with the previous block if it is free -/
def coalescePrev (H : ℕ) (mem : ℕ → MemBlock) (block : ℕ) : ℕ → MemBlock :=
  match (mem block).prev with
  | none => mem
  | some prev => if (mem prev).free then mergeNext H mem prev block else mem

/-- the header part of `free` for payload offset `p` -/
def freeBlock (H : ℕ) (mem : ℕ → MemBlock) (p : ℕ) : ℕ → MemBlock :=
  let block := subSz p H
  let mem := Function.update mem block { mem block with free := true }
  let mem := coalesceNext H mem block
  coalescePrev H mem block

/-- a client write to the `n` bytes from `p` on -/
def scribble (H : ℕ) (mp : MemPool) (p n : ℕ) (junk : ℕ → Junk) : MemPool :=
  { mp with mem := fun o => if max p o < min (p + n) (o + H) then
                              ⟨(junk o).size, (junk o).next, (junk o).prev, (junk o).free⟩
                            else mp.mem o }

/-! ## memorypoolDLL.c -/

namespace DllC

/-- `sizeof(MemBlock)` on a 64-bit machine -/
def sizeofMemBlock : ℕ := 32

def mempoolInit (H : ℕ) (mem : ℕ → MemBlock) (size : ℕ) : MemPool :=
  if size ≤ H then ⟨mem, 0, none⟩ else ⟨Function.update mem 0 ⟨subSz size H, none, none, true⟩, size, some 0⟩

def mempoolAlloc (H : ℕ) (mp : MemPool) (size : ℕ) : Option (MemPool × Option ℕ) :=
  match mp.head with
  | none => some (mp, none)
  | some head => (allocLoop H size maxSteps mp.mem (some head)).map fun r => ({ mp with mem := r.1 }, r.2)

def mempoolFree (H : ℕ) (mp : MemPool) (ptr : Option ℕ) : Option MemPool :=
  match ptr with
  | none => some mp
  | some p => some { mp with mem := freeBlock H mp.mem p }

def pool (H : ℕ) : Allocator MemPool := ⟨id, mempoolAlloc H, mempoolFree H, scribble H⟩

end DllC

/-! ## memorypoolDLL.cpp -/

namespace DllCpp

def sizeofMemBlock : ℕ := 32

/-- the constructor: no check of `size` -/
def memPool (H : ℕ) (mem : ℕ → MemBlock) (size : ℕ) : MemPool :=
  ⟨Function.update mem 0 ⟨subSz size H, none, none, true⟩, size, some 0⟩

def alloc (H : ℕ) (mp : MemPool) (size : ℕ) : Option (MemPool × Option ℕ) :=
  (allocLoop H size maxSteps mp.mem mp.head).map fun r => ({ mp with mem := r.1 }, r.2)

def free (H : ℕ) (mp : MemPool) (ptr : Option ℕ) : Option MemPool :=
  match ptr with
  | none => some mp
  | some p => some { mp with mem := freeBlock H mp.mem p }

def pool (H : ℕ) : Allocator MemPool := ⟨id, alloc H, free H, scribble H⟩

end DllCpp

/-! ## Headers that list blocks, both ways -/

/-- the headers in memory are those of the blocks; each `next` is the block after, each `prev` the block before -/
def Linked (mem : ℕ → MemBlock) : Option ℕ → List Block → Prop
  | _, [] => True
  | p, b :: bs => mem b.off = ⟨b.size, first bs, p, b.free⟩ ∧ Linked mem (some b.off) bs

/-- the header without its back link -/
def MemBlock.forget (b : MemBlock) : Singly.MemBlock := ⟨b.size, b.next, b.free⟩

theorem Linked.forget {mem : ℕ → MemBlock} {p : Option ℕ} {bs : List Block} (h : Linked mem p bs) :
    Singly.Listed (fun o => (mem o).forget) bs := by
  induction bs generalizing p with
  | nil => trivial
  | cons b bs ih => exact ⟨congrArg MemBlock.forget h.1, ih h.2⟩

/-- the offset of the last block of a list, `p` when there is none -/
def lastOff : Option ℕ → List Block → Option ℕ
  | p, [] => p
  | _, b :: bs => lastOff (some b.off) bs

theorem Linked.frame {mem mem' : ℕ → MemBlock} {p : Option ℕ} {bs : List Block} (h : Linked mem p bs)
    (heq : ∀ b ∈ bs, mem' b.off = mem b.off) : Linked mem' p bs := by
  induction bs generalizing p with
  | nil => trivial
  | cons b bs ih =>
    exact ⟨by rw [heq b List.mem_cons_self]; exact h.1, ih h.2 fun c hc => heq c (List.mem_cons_of_mem _ hc)⟩

theorem Linked.update_before {mem : ℕ → MemBlock} {H a e : ℕ} {p : Option ℕ} {bs : List Block}
    (h : Linked mem p bs) (ht : Tiles H a bs e) {o : ℕ} (ho : o < a) (v : MemBlock) :
    Linked (Function.update mem o v) p bs := by
  refine h.frame fun b hb => ?_
  have hoff : b.off ≠ o := by
    have := (ht.mem hb).1
    omega
  exact Function.update_of_ne hoff v mem

theorem Linked.suffix {mem : ℕ → MemBlock} {p : Option ℕ} {as bs : List Block} (h : Linked mem p (as ++ bs)) :
    Linked mem (lastOff p as) bs := by
  induction as generalizing p with
  | nil => exact h
  | cons a as ih => exact ih h.2

/-- **Locality.** The end of a list can be exchanged by changing memory from its first header on. -/
theorem Linked.replace {mem mem' : ℕ → MemBlock} {H a m : ℕ} (hH : 0 < H) {p : Option ℕ} {as l l' : List Block}
    (h : Linked mem p (as ++ l)) (ht : Tiles H a as m) (heq : ∀ o < m, mem' o = mem o)
    (hl : Linked mem' (lastOff p as) l') (hf : first l' = first l) : Linked mem' p (as ++ l') := by
  induction as generalizing p a with
  | nil => exact hl
  | cons b as ih =>
    refine ⟨?_, ih h.2 ht.2 hl⟩
    have hb := (ht.mem (b := b) (by simp)).2
    have hfirst : first (as ++ l') = first (as ++ l) := by
      cases as with
      | nil => exact hf
      | cons c as => rfl
    have hmem : mem b.off = ⟨b.size, first (as ++ l), p, b.free⟩ := h.1
    rw [heq b.off (by omega), hmem, ← hfirst]
    rfl

/-- the back link of the first block can be redirected -/
theorem Linked.relink {mem : ℕ → MemBlock} {H a e : ℕ} (hH : 0 < H) {p : Option ℕ} (q : Option ℕ) {bs : List Block}
    (h : Linked mem p bs) (ht : Tiles H a bs e) : Linked (setPrev mem (first bs) q) q bs := by
  cases bs with
  | nil => trivial
  | cons b bs =>
    refine ⟨?_, h.2.update_before ht.2 (by omega) _⟩
    show Function.update mem b.off { mem b.off with prev := q } b.off = _
    rw [Function.update_self, h.1]

theorem setPrev_other {mem : ℕ → MemBlock} {block q : Option ℕ} {o : ℕ} (h : block ≠ some o) :
    setPrev mem block q o = mem o := by
  cases block with
  | none => rfl
  | some b => exact Function.update_of_ne (fun hob => h (by rw [hob])) _ _

/-- the first block of a tiling starts where the tiling starts -/
theorem first_ne {H a e : ℕ} {bs : List Block} (ht : Tiles H a bs e) {o : ℕ} (ho : o < a) : first bs ≠ some o := by
  cases bs with
  | nil => simp [first]
  | cons b bs =>
    have := ht.1
    simp only [first, List.head?_cons, Option.map_some, ne_eq, Option.some.injEq]
    omega

/-! ## Allocation -/

/-- the branch that hands out `b`: the headers become those of the carved block, linked both ways -/
theorem take_linked {H : ℕ} (hH : 0 < H) {mem : ℕ → MemBlock} {n e : ℕ} {p : Option ℕ} {b : Block} {bs : List Block}
    (he : e < 2 ^ 64) (ht : Tiles H b.off (b :: bs) e) (h : Linked mem p (b :: bs)) (hn : n ≤ b.size) :
    let mem' := if addSz n H < (mem b.off).size then split H n mem b.off else mem
    Linked (Function.update mem' b.off { mem' b.off with free := false }) p (carve (sllPolicy H hH) n b ++ bs) ∧
      ∀ o < b.off, mem' o = mem o := by
  intro mem'
  obtain ⟨hb, hbs⟩ := h
  have hend := ht.2.le
  have hsize : (mem b.off).size = b.size := by rw [hb]
  have hnext : (mem b.off).next = first bs := by rw [hb]
  have hsum : addSz n H = n + H := addSz_eq (by omega)
  by_cases hs : n + H < b.size
  · have hnew : addSz (addSz b.off H) n = b.off + H + n := by
      rw [addSz_eq (a := b.off) (by omega), addSz_eq (by omega)]
    have hrest : subSz (subSz b.size n) H = b.size - n - H := by
      rw [subSz_eq (a := b.size) hn (by omega), subSz_eq (by omega) (by omega)]
    -- the new header first, then the back link of the block after it, then the block itself
    set mem1 := Function.update mem (b.off + H + n) ⟨b.size - n - H, first bs, some b.off, true⟩ with hmem1
    have hmem1b : mem1 b.off = mem b.off := Function.update_of_ne (by omega) _ _
    set mem2 := setPrev mem1 (first bs) (some (b.off + H + n)) with hmem2
    have hmem2b : mem2 b.off = mem b.off := by
      rw [hmem2, setPrev_other (first_ne ht.2 (by omega)), hmem1b]
    have hmem : mem' = Function.update mem2 b.off { mem b.off with next := some (b.off + H + n), size := n } := by
      simp only [mem', hsize, hsum, hs, if_true, split, hnew, hrest, hnext, ← hmem1, hmem1b, ← hmem2, hmem2b]
    have hcarve : carve (sllPolicy H hH) n b = [⟨b.off, n, false⟩, ⟨b.off + H + n, b.size - n - H, true⟩] := by
      simp [carve, sllPolicy, hs]
    have hl1 : Linked mem1 (some b.off) bs := by
      refine hbs.frame fun c hc => ?_
      have := (ht.2.mem hc).1
      exact Function.update_of_ne (by omega) _ _
    have hl2 : Linked mem2 (some (b.off + H + n)) bs := hl1.relink hH _ ht.2
    rw [hcarve, hmem]
    refine ⟨⟨by simp [first, hb], ?_, ?_⟩, fun o ho => ?_⟩
    · rw [Function.update_of_ne (by simp; omega), Function.update_of_ne (by simp; omega)]
      show mem2 (b.off + H + n) = _
      rw [hmem2, setPrev_other (first_ne ht.2 (by omega)), hmem1]
      simp
    · refine hl2.frame fun c hc => ?_
      have hcoff := (ht.2.mem hc).1
      rw [Function.update_of_ne (by omega), Function.update_of_ne (by omega)]
    · rw [Function.update_of_ne (by omega), hmem2, setPrev_other (first_ne ht.2 (by omega)), hmem1,
        Function.update_of_ne (by omega)]
  · have hmem : mem' = mem := by simp only [mem', hsize, hsum]; rw [if_neg hs]
    have hcarve : carve (sllPolicy H hH) n b = [⟨b.off, b.size, false⟩] := by
      simp [carve, sllPolicy, hs]
    rw [hcarve, hmem]
    exact ⟨⟨by simp [hb, first], hbs.update_before ht.2 (by omega) _⟩, fun o _ => rfl⟩

/-- **First fit.** On headers that link a tiling the loop ends and returns what `allocate` returns, and the headers
then link the new blocks; headers in front of the tiling are not touched. -/
theorem allocLoop_spec {H n e : ℕ} (hH : 0 < H) (he : e < 2 ^ 64) (bs : List Block) (fuel : ℕ) (mem : ℕ → MemBlock)
    (a : ℕ) (p : Option ℕ) (ht : Tiles H a bs e) (h : Linked mem p bs) (hfuel : bs.length < fuel) :
    ∃ mem', allocLoop H n fuel mem (first bs) = some (mem', (allocate (sllPolicy H hH) n bs).map Prod.fst) ∧
      Linked mem' p (((allocate (sllPolicy H hH) n bs).map Prod.snd).getD bs) ∧
      first (((allocate (sllPolicy H hH) n bs).map Prod.snd).getD bs) = first bs ∧ ∀ o < a, mem' o = mem o := by
  induction bs generalizing fuel a p with
  | nil =>
    obtain ⟨fuel, rfl⟩ : ∃ f, fuel = f + 1 := ⟨fuel - 1, by simp at hfuel; omega⟩
    exact ⟨mem, rfl, trivial, rfl, fun _ _ => rfl⟩
  | cons b bs ih =>
    obtain ⟨fuel, rfl⟩ : ∃ f, fuel = f + 1 := ⟨fuel - 1, by simp at hfuel; omega⟩
    have hb := h.1
    have hba : b.off = a := ht.1
    subst hba
    have hend := ht.2.le
    simp only [List.length_cons] at hfuel
    by_cases hfit : b.free = true ∧ n ≤ b.size
    · obtain ⟨hl, hframe⟩ := take_linked hH he ht h hfit.2
      have hall : allocate (sllPolicy H hH) n (b :: bs) = some (b.off + H, carve (sllPolicy H hH) n b ++ bs) := by
        simp [allocate, hfit.1, hfit.2, sllPolicy]
      refine ⟨_, ?_, by rw [hall]; exact hl, by rw [hall]; exact Singly.carve_first _ n b bs, fun o ho => ?_⟩
      · have hcond : ((mem b.off).free && decide (n ≤ (mem b.off).size)) = true := by simp [hb, hfit.1, hfit.2]
        rw [hall]
        simp only [first, List.head?_cons, Option.map_some, allocLoop, hcond, if_true]
        rw [addSz_eq (a := b.off) (by omega)]
      · rw [Function.update_of_ne (by omega)]; exact hframe o ho
    · obtain ⟨mem', hrun, hl, hf, hframe⟩ := ih fuel _ _ ht.2 h.2 (by omega)
      obtain ⟨hlist, hret⟩ := allocate_skip (sllPolicy H hH) bs hfit
      refine ⟨mem', ?_, ?_, by rw [hlist]; rfl, fun o ho => hframe o (by omega)⟩
      · have hcond : ((mem b.off).free && decide (n ≤ (mem b.off).size)) = false := by
          rw [hb]; simpa using hfit
        rw [hret, ← hrun]
        show allocLoop H n (fuel + 1) mem (some b.off) = _
        rw [allocLoop, hcond, hb]
        rfl
      · rw [hlist]
        exact ⟨by rw [hframe b.off (by omega), hb, hf], hl⟩

/-! ## Free -/

theorem Linked.mark {mem : ℕ → MemBlock} {H a e : ℕ} (hH : 0 < H) {p : Option ℕ} {b : Block} {cs : List Block}
    (h : Linked mem p (b :: cs)) (ht : Tiles H a (b :: cs) e) :
    Linked (Function.update mem b.off { mem b.off with free := true }) p (freed b :: cs) :=
  ⟨by rw [h.1]; simp [freed], h.2.update_before ht.2 (by omega) _⟩

theorem Linked.merge {mem : ℕ → MemBlock} {H a e : ℕ} (hH : 0 < H) (he : e < 2 ^ 64) {p : Option ℕ} {b c : Block}
    {cs : List Block} (h : Linked mem p (b :: c :: cs)) (ht : Tiles H a (b :: c :: cs) e) :
    Linked (mergeNext H mem b.off c.off) p (join H b c :: cs) ∧
      ∀ o < b.off, mergeNext H mem b.off c.off o = mem o := by
  have hend := ht.2.2.le
  have hc := ht.2.1
  have hnext : (mem c.off).next = first cs := by rw [h.2.1]
  have hsum : addSz b.size (addSz H c.size) = b.size + (H + c.size) := by
    rw [addSz_eq (a := H) (by omega), addSz_eq (by omega)]
  unfold mergeNext
  rw [hnext]
  refine ⟨⟨?_, (h.2.2.update_before ht.2.2 (by omega) _).relink hH _ ht.2.2⟩, fun o ho => ?_⟩
  · show setPrev _ _ _ b.off = _
    rw [setPrev_other (first_ne ht.2.2 (by omega)), Function.update_self, h.1, h.2.1]
    simp [join, hsum]
  · rw [setPrev_other (first_ne ht.2.2 (by omega)), Function.update_of_ne (by omega)]

/-- coalescing with the next block is absorbing the rest of the list -/
theorem Linked.join_next {mem : ℕ → MemBlock} {H a e : ℕ} (hH : 0 < H) (he : e < 2 ^ 64) {p : Option ℕ} {b : Block}
    {cs : List Block} (h : Linked mem p (b :: cs)) (ht : Tiles H a (b :: cs) e) (hb : b.free = true) :
    Linked (coalesceNext H mem b.off) p (absorb H b cs) ∧ ∀ o < b.off, coalesceNext H mem b.off o = mem o := by
  have hnext : (mem b.off).next = first cs := by rw [h.1]
  unfold coalesceNext
  cases cs with
  | nil =>
    rw [hnext]
    exact ⟨h, fun _ _ => rfl⟩
  | cons c cs =>
    rw [hnext]
    have hcf : (mem c.off).free = c.free := by rw [h.2.1]
    simp only [first, List.head?_cons, Option.map_some, hcf, absorb, hb, Bool.true_and]
    split_ifs
    · exact h.merge hH he ht
    · exact ⟨h, fun _ _ => rfl⟩

/-- coalescing with the previous block, `x`, is letting `x` absorb what starts at the block -/
theorem Linked.join_prev {mem : ℕ → MemBlock} {H a e : ℕ} (hH : 0 < H) (he : e < 2 ^ 64) {p : Option ℕ}
    {x b : Block} {cs : List Block} (h : Linked mem p (x :: b :: cs)) (ht : Tiles H a (x :: b :: cs) e)
    (hb : b.free = true) :
    Linked (coalescePrev H mem b.off) p (absorb H x (b :: cs)) ∧
      ∀ o < x.off, coalescePrev H mem b.off o = mem o := by
  have hprev : (mem b.off).prev = some x.off := by rw [h.2.1]
  have hxf : (mem x.off).free = x.free := by rw [h.1]
  unfold coalescePrev
  rw [hprev]
  simp only [hxf, absorb, hb, Bool.and_true]
  split_ifs
  · exact h.merge hH he ht
  · exact ⟨h, fun _ _ => rfl⟩

/-- **The two local joins coalesce fully.** On a list without free neighbours, freeing a block links the fully
coalesced list. -/
theorem freeBlock_spec {mem : ℕ → MemBlock} {H e : ℕ} (hH : 0 < H) (he : e < 2 ^ 64) {as cs : List Block} {b : Block}
    (h : Linked mem none (as ++ b :: cs)) (ht : Tiles H 0 (as ++ b :: cs) e) (hco : Coalesced (as ++ b :: cs)) :
    Linked (freeBlock H mem (b.off + H)) none (coalesce H (as ++ freed b :: cs)) := by
  have hcs : Coalesced cs := (List.isChain_cons.1 hco.right_of_append).2
  have hbe := ht.mem (b := b) (by simp)
  have hoff : subSz (b.off + H) H = b.off := by rw [subSz_eq (by omega) (by omega)]; omega
  obtain ⟨m, hta, htb⟩ := (tiles_append _ _ _ _ _).1 ht
  have hbm : b.off = m := htb.1
  -- mark, then join with the next block
  set mem1 := Function.update mem b.off { mem b.off with free := true }
  have h1 : Linked mem1 (lastOff none as) (freed b :: cs) := h.suffix.mark hH htb
  have hf1 : ∀ o < b.off, mem1 o = mem o := fun o ho => Function.update_of_ne (by omega) _ _
  obtain ⟨h2, hf2⟩ := h1.join_next hH he (b := freed b) htb rfl
  set mem2 := coalesceNext H mem1 b.off
  obtain ⟨y, l, hy, hyf, hyo⟩ := absorb_head H (freed b) cs
  have hyo' : y.off = b.off := hyo
  have hall : Linked mem2 none (as ++ absorb H (freed b) cs) := by
    refine h.replace hH hta (fun o ho => ?_) h2 (by rw [hy]; simp [first, hyo'])
    have : mem2 o = mem1 o := hf2 o (by show o < b.off; omega)
    rw [this, hf1 o (by omega)]
  have htall : Tiles H 0 (as ++ absorb H (freed b) cs) e :=
    (tiles_append _ _ _ _ _).2 ⟨m, hta, (absorb_merges H (freed b) cs).tiles htb⟩
  -- join with the previous block
  show Linked (coalescePrev H _ _) none _
  rw [hoff]
  cases as using List.reverseRecOn with
  | nil =>
    have hprev : (mem2 b.off).prev = none := by
      rw [hy] at hall
      rw [← hyo', hall.1]
    show Linked (coalescePrev H mem2 b.off) none _
    rw [List.nil_append, coalesce_cons, coalesce_of_coalesced H hcs]
    unfold coalescePrev
    rw [hprev]
    exact hall
  | append_singleton as x =>
    have hx : as ++ [x] ++ freed b :: cs = as ++ x :: freed b :: cs := by simp
    have hxy : as ++ [x] ++ absorb H (freed b) cs = as ++ x :: y :: l := by rw [hy]; simp
    rw [hxy] at hall htall
    obtain ⟨m', hta', htx⟩ := (tiles_append _ _ _ _ _).1 htall
    obtain ⟨h3, hf3⟩ := hall.suffix.join_prev hH he htx hyf
    have hxm : x.off = m' := htx.1
    rw [hx, coalesce_released H (freed b) hco.left_of_append hcs, hy]
    rw [hyo'] at h3 hf3
    obtain ⟨z, l', hz, -, hzo⟩ := absorb_head H x (y :: l)
    refine hall.replace hH hta' (fun o ho => hf3 o (by omega)) h3 (by rw [hz]; simp [first, hzo])

/-! ## The pools implement first fit -/

/-- a pool of size `e` whose list from `head` is `bs`, linked both ways -/
structure Pool (e : ℕ) (mp : MemPool) (bs : List Block) : Prop where
  size : mp.poolSize = e
  head : mp.head = first bs
  linked : Linked mp.mem none bs

theorem scribble_pool {H e : ℕ} {mp : MemPool} {bs : List Block} (h : Pool e mp bs) (p n : ℕ) (junk : ℕ → Junk)
    (hoff : ∀ b ∈ bs, p + n ≤ b.off ∨ b.off + H ≤ p) : Pool e (scribble H mp p n junk) bs := by
  refine ⟨h.size, h.head, h.linked.frame fun b hb => ?_⟩
  have := hoff b hb
  simp only [scribble]
  rw [if_neg (by omega)]

theorem alloc_pool {H e : ℕ} (hH : 0 < H) (he : e < 2 ^ 64) (n : ℕ) {mp : MemPool} {bs : List Block}
    (ht : Tiles H 0 bs e) (h : Pool e mp bs) :
    ∃ mem', allocLoop H n maxSteps mp.mem mp.head = some (mem', (allocate (sllPolicy H hH) n bs).map Prod.fst) ∧
      Pool e { mp with mem := mem' } (((allocate (sllPolicy H hH) n bs).map Prod.snd).getD bs) := by
  obtain ⟨mem', hrun, hl, hf, -⟩ :=
    allocLoop_spec hH he bs maxSteps mp.mem 0 none ht h.linked (Singly.length_lt_maxSteps hH he ht)
  exact ⟨mem', by rw [h.head]; exact hrun, h.size, by rw [hf]; exact h.head, hl⟩

theorem free_pool {H e : ℕ} (hH : 0 < H) (he : e < 2 ^ 64) {mp : MemPool} {as cs : List Block} {b : Block}
    (ht : Tiles H 0 (as ++ b :: cs) e) (hco : Coalesced (as ++ b :: cs)) (h : Pool e mp (as ++ b :: cs)) :
    Pool e { mp with mem := freeBlock H mp.mem (b.off + H) } (coalesce H (as ++ freed b :: cs)) :=
  ⟨h.size, by rw [Singly.first_coalesce, Singly.first_freed]; exact h.head, freeBlock_spec hH he h.linked ht hco⟩

/-- **`memorypoolDLL.c` implements first fit with full coalescing.** -/
theorem dllC_refines (H e : ℕ) (hH : 0 < H) (he : e < 2 ^ 64) :
    Refines (sllPolicy H hH) e (DllC.pool H) (Pool e) where
  bytes := rfl
  alloc mp bs n ht h := by
    cases hhead : mp.head with
    | none =>
      have hnil : bs = [] := Singly.first_eq_none.1 (h.head.symm.trans hhead)
      subst hnil
      exact ⟨mp, by simp [DllC.pool, DllC.mempoolAlloc, hhead, allocate], h⟩
    | some head =>
      obtain ⟨mem', hrun, hp⟩ := alloc_pool hH he n ht h
      refine ⟨_, ?_, hp⟩
      have hrun' : DllC.mempoolAlloc H mp n = Option.map (fun r => ({ mp with mem := r.1 }, r.2))
          (allocLoop H n maxSteps mp.mem mp.head) := by
        rw [DllC.mempoolAlloc, hhead]
      exact hrun'.trans (congrArg (Option.map _) hrun)
  free mp as b cs ht hco h _ := ⟨_, rfl, free_pool hH he ht (hco rfl) h⟩
  scribble mp bs p n junk _ h hoff := scribble_pool h p n junk hoff

/-- **`memorypoolDLL.cpp` implements first fit with full coalescing.** -/
theorem dllCpp_refines (H e : ℕ) (hH : 0 < H) (he : e < 2 ^ 64) :
    Refines (sllPolicy H hH) e (DllCpp.pool H) (Pool e) where
  bytes := rfl
  alloc mp bs n ht h := by
    obtain ⟨mem', hrun, hp⟩ := alloc_pool hH he n ht h
    exact ⟨_, congrArg (Option.map _) hrun, hp⟩
  free mp as b cs ht hco h _ := ⟨_, rfl, free_pool hH he ht (hco rfl) h⟩
  scribble mp bs p n junk _ h hoff := scribble_pool h p n junk hoff

/-! ## Fresh pools -/

theorem DllC.init_pool (H : ℕ) (mem : ℕ → MemBlock) (size : ℕ) (hsz : H < size) (hlt : size < 2 ^ 64) :
    Pool size (DllC.mempoolInit H mem size) (whole H size) := by
  rw [DllC.mempoolInit, if_neg (by omega), subSz_eq hsz.le hlt]
  exact ⟨rfl, rfl, by simp [Linked, whole, first]⟩

theorem DllC.init_pool_small (H : ℕ) (mem : ℕ → MemBlock) (size : ℕ) (hsz : size ≤ H) :
    Pool 0 (DllC.mempoolInit H mem size) [] := by
  rw [DllC.mempoolInit, if_pos hsz]
  exact ⟨rfl, rfl, trivial⟩

theorem DllCpp.init_pool (H : ℕ) (mem : ℕ → MemBlock) (size : ℕ) (hsz : H ≤ size) (hlt : size < 2 ^ 64) :
    Pool size (DllCpp.memPool H mem size) (whole H size) := by
  rw [DllCpp.memPool, subSz_eq hsz hlt]
  exact ⟨rfl, rfl, by simp [Linked, whole, first]⟩

/-! ## Whole runs of memorypoolDLL.c -/

/-- a run of `memorypoolDLL.c` from a fresh pool: the headers link the blocks of the first-fit allocator -/
theorem dllC_run (mem : ℕ → MemBlock) {H size : ℕ} (hH : 0 < H) (hsz : H < size) (hlt : size < 2 ^ 64)
    (ops : List Op) :
    ∃ s t, run (DllC.pool H) (fresh (DllC.mempoolInit H mem size)) ops = some s ∧
      Agrees (Pool size) s t ∧ Inv (sllPolicy H hH) size t := by
  obtain ⟨s, t, hs, -, hagree, hi⟩ := run_refines (dllC_refines H size hH hlt) ops (fun _ _ => rfl)
    (inv_whole (sllPolicy H hH) size hsz.le) (fresh_agrees (DllC.init_pool H mem size hsz hlt))
  exact ⟨s, t, hs, hagree, hi⟩

/-- **`memorypoolDLL.c` in every run.** For every accepted pool size and any sequence of allocations of any size, frees
of NULL or of pointers held, and client writes inside the bytes asked for, the calls have returned and the list from
`head` tiles the pool; every `prev` is the block before, NULL for the head (`Linked`). The allocated blocks are the
pointers held, one for one, each at least as large as its request, so payloads are disjoint from each other and from
every header. -/
theorem dllC_runs (mem : ℕ → MemBlock) (size : ℕ) (hsz : DllC.sizeofMemBlock < size) (hlt : size < 2 ^ 64)
    (ops : List Op) :
    ∃ s bs, run (DllC.pool DllC.sizeofMemBlock) (fresh (DllC.mempoolInit DllC.sizeofMemBlock mem size)) ops = some s ∧
      s.pool.head = first bs ∧ Linked s.pool.mem none bs ∧
      s.pool.poolSize = size ∧ Tiles DllC.sizeofMemBlock 0 bs size ∧
      (s.live.map Prod.fst).Nodup ∧
      (s.live.map Prod.fst).Perm ((used bs).map fun b => b.off + DllC.sizeofMemBlock) ∧
      (∀ l ∈ s.live, ∃ b ∈ used bs, b.off + DllC.sizeofMemBlock = l.1 ∧ l.2 ≤ b.size) ∧
      (∀ l ∈ s.live, ∀ k ∈ s.live, l.1 ≠ k.1 → l.1 + l.2 ≤ k.1 ∨ k.1 + k.2 ≤ l.1) ∧
      ∀ l ∈ s.live, ∀ b ∈ bs, l.1 + l.2 ≤ b.off ∨ b.off + DllC.sizeofMemBlock ≤ l.1 := by
  obtain ⟨s, t, hs, hagree, hi⟩ := dllC_run mem (H := DllC.sizeofMemBlock) (by decide) hsz hlt ops
  refine ⟨s, t.pool, hs, hagree.pool.head, hagree.pool.linked, hagree.pool.size, hi.tiles, ?_⟩
  rw [hagree.live]
  exact ⟨hi.owns.live_nodup (by decide) hi.tiles, hi.owns.ptrs, hi.owns.fits,
    fun l hl k hk hne => hi.owns.payload_apart hi.tiles hl hk hne,
    fun l hl b hb => hi.owns.payload_off_header hi.tiles hl hb⟩

/-- the sizes of `main`: a 1024-byte pool, three allocations, the middle block freed -/
theorem dllC_runs_main :
    ∃ s bs, run (DllC.pool DllC.sizeofMemBlock)
        (fresh (DllC.mempoolInit DllC.sizeofMemBlock (fun _ => ⟨0, none, none, false⟩) 1024))
        [.alloc 100, .alloc 200, .alloc 300, .free (some 164)] = some s ∧
      s.pool.head = first bs ∧ Linked s.pool.mem none bs ∧ Tiles DllC.sizeofMemBlock 0 bs 1024 := by
  obtain ⟨s, bs, hs, hh, hl, -, ht, -⟩ := dllC_runs (fun _ => ⟨0, none, none, false⟩) 1024 (by decide) (by decide)
    [.alloc 100, .alloc 200, .alloc 300, .free (some 164)]
  exact ⟨s, bs, hs, hh, hl, ht⟩

/-- **`memorypoolDLL.c` never leaves free neighbours, and everything comes back.** After any run no two neighbouring
blocks are free, and from there freeing all pointers held, in any order, ends with the initial state: one free block
over the whole pool, without neighbours. -/
theorem dllC_restores (mem : ℕ → MemBlock) (size : ℕ) (hsz : DllC.sizeofMemBlock < size) (hlt : size < 2 ^ 64)
    (ops : List Op) :
    ∃ s bs, run (DllC.pool DllC.sizeofMemBlock) (fresh (DllC.mempoolInit DllC.sizeofMemBlock mem size)) ops = some s ∧
      s.pool.head = first bs ∧ Linked s.pool.mem none bs ∧ Coalesced bs ∧
      ∀ ps : List ℕ, ps.Perm (s.live.map Prod.fst) →
        ∃ s', run (DllC.pool DllC.sizeofMemBlock) s (frees ps) = some s' ∧ s'.live = [] ∧ s'.pool.poolSize = size ∧
          s'.pool.head = some 0 ∧ s'.pool.mem 0 = ⟨size - DllC.sizeofMemBlock, none, none, true⟩ := by
  have hH : 0 < DllC.sizeofMemBlock := by decide
  obtain ⟨s, t, hs, hagree, hi⟩ := dllC_run mem hH hsz hlt ops
  refine ⟨s, t.pool, hs, hagree.pool.head, hagree.pool.linked, hi.coal rfl, fun ps hps => ?_⟩
  rw [hagree.live] at hps
  obtain ⟨s', t', hs', ht', hagree', -⟩ := run_refines (dllC_refines _ size hH hlt) (frees ps) (fun _ _ => rfl) hi hagree
  obtain ⟨t'', ht'', hlive, hwhole⟩ := run_frees_all (P := sllPolicy _ hH) rfl (by omega) ps t hi hps
  obtain rfl : t' = t'' := Option.some.inj (ht'.symm.trans ht'')
  have hp := hagree'.pool
  rw [hwhole] at hp
  exact ⟨s', hs', by rw [hagree'.live, hlive], hp.size, hp.head, hp.linked.1⟩

/-- the same for the pool of `main` after its three allocations -/
theorem dllC_restores_main :
    ∃ s bs, run (DllC.pool DllC.sizeofMemBlock)
        (fresh (DllC.mempoolInit DllC.sizeofMemBlock (fun _ => ⟨0, none, none, false⟩) 1024))
        [.alloc 100, .alloc 200, .alloc 300] = some s ∧
      s.pool.head = first bs ∧ Linked s.pool.mem none bs ∧ Coalesced bs := by
  obtain ⟨s, bs, hs, hh, hl, hc, -⟩ := dllC_restores (fun _ => ⟨0, none, none, false⟩) 1024 (by decide) (by decide)
    [.alloc 100, .alloc 200, .alloc 300]
  exact ⟨s, bs, hs, hh, hl, hc⟩

/-! ## Allocating and freeing at once -/

/-- a run of `memorypoolDLL.c` from a pool of any size: a refused one has no blocks -/
theorem dllC_run_any (mem : ℕ → MemBlock) {H size : ℕ} (hH : 0 < H) (hlt : size < 2 ^ 64) (ops : List Op) :
    ∃ e s t, e < 2 ^ 64 ∧ run (DllC.pool H) (fresh (DllC.mempoolInit H mem size)) ops = some s ∧
      Agrees (Pool e) s t ∧ Inv (sllPolicy H hH) e t := by
  by_cases hsz : H < size
  · obtain ⟨s, t, hs, hagree, hi⟩ := dllC_run mem hH hsz hlt ops
    exact ⟨size, s, t, hlt, hs, hagree, hi⟩
  · obtain ⟨s, t, hs, -, hagree, hi⟩ := run_refines (dllC_refines H 0 hH (by decide)) ops (fun _ _ => rfl)
      (inv_nil (sllPolicy H hH)) (fresh_agrees (DllC.init_pool_small H mem size (by omega)))
    exact ⟨0, s, t, by decide, hs, hagree, hi⟩

/-- the headers that link a block list are determined by it -/
theorem Linked.headers {mem mem' : ℕ → MemBlock} {p : Option ℕ} {bs : List Block} (h : Linked mem p bs)
    (h' : Linked mem' p bs) : ∀ b ∈ bs, mem' b.off = mem b.off := by
  induction bs generalizing p with
  | nil => simp
  | cons b bs ih =>
    intro c hc
    rcases List.mem_cons.1 hc with rfl | hc
    · rw [h.1, h'.1]
    · exact ih h.2 h'.2 c hc

/-- freeing the block that was just allocated from a coalesced list gives a pool of the same list -/
theorem dllC_free_alloc {H e : ℕ} (hH : 0 < H) (he : e < 2 ^ 64) {mp mp1 : MemPool} {bs : List Block} {n p : ℕ}
    (ht : Tiles H 0 bs e) (hco : Coalesced bs) (h : Pool e mp bs) (ha : DllC.mempoolAlloc H mp n = some (mp1, some p)) :
    ∃ mp2, DllC.mempoolFree H mp1 (some p) = some mp2 ∧ Pool e mp2 bs := by
  obtain ⟨mp1', hrun, hp1⟩ := (dllC_refines H e hH he).alloc mp bs n ht h
  obtain ⟨rfl, hret⟩ := Prod.mk.inj (Option.some.inj (hrun.symm.trans ha))
  obtain ⟨⟨q, bs1⟩, hall, rfl⟩ := Option.map_eq_some_iff.1 hret
  have hsnd : (allocate (sllPolicy H hH) ((sllPolicy H hH).bytes n) bs).map Prod.snd = some bs1 := by rw [hall]; rfl
  rw [hsnd, Option.getD_some] at hp1
  -- the new list still tiles the pool and has no free neighbours, so `free_pool` applies to it
  have hnew : Tiles H 0 bs1 e ∧ Coalesced bs1 := by
    rcases allocate_cases (sllPolicy H hH) n bs with ⟨hn, -⟩ | ⟨as, b, cs, hbs, hb, -, hs⟩
    · rw [show (sllPolicy H hH).bytes n = n from rfl, hn] at hall
      cases hall
    · obtain ⟨-, rfl⟩ := Prod.mk.inj (Option.some.inj (hs.symm.trans hall))
      rw [hbs] at ht hco
      exact ⟨carve_tiles_in (sllPolicy H hH) n ht, carve_coalesced (sllPolicy H hH) n hb hco⟩
  obtain ⟨as, b, cs, rfl, -, rfl, hback⟩ := allocate_undone (sllPolicy H hH) hco hall
  refine ⟨_, rfl, ?_⟩
  rw [← hback]
  exact free_pool hH he hnew.1 hnew.2 hp1

/-- **`memorypoolDLL.c`: allocate and free at once is the identity on the list.** After any run from a pool of any
size, a call of `mempool_alloc` returns, and when it returned a pointer, freeing it at once restores the list: the
same head, and at every block of it the same header, that is size, free flag, `next` and `prev`. -/
theorem dllC_alloc_free_restores (mem : ℕ → MemBlock) (size : ℕ) (hlt : size < 2 ^ 64) (ops : List Op) :
    ∃ s bs, run (DllC.pool DllC.sizeofMemBlock) (fresh (DllC.mempoolInit DllC.sizeofMemBlock mem size)) ops = some s ∧
      s.pool.head = first bs ∧ Linked s.pool.mem none bs ∧
      ∀ n, ∃ mp1 r, DllC.mempoolAlloc DllC.sizeofMemBlock s.pool n = some (mp1, r) ∧
        ∀ p, r = some p → ∃ mp2, DllC.mempoolFree DllC.sizeofMemBlock mp1 (some p) = some mp2 ∧
          mp2.head = s.pool.head ∧ mp2.poolSize = s.pool.poolSize ∧ Linked mp2.mem none bs ∧
          ∀ b ∈ bs, mp2.mem b.off = s.pool.mem b.off := by
  have hH : 0 < DllC.sizeofMemBlock := by decide
  obtain ⟨e, s, t, he, hs, hagree, hi⟩ := dllC_run_any mem hH hlt ops
  have hpool := hagree.pool
  refine ⟨s, t.pool, hs, hpool.head, hpool.linked, fun n => ?_⟩
  obtain ⟨mp1, hrun, -⟩ := (dllC_refines _ e hH he).alloc s.pool t.pool n hi.tiles hpool
  refine ⟨mp1, _, hrun, fun p hp => ?_⟩
  rw [hp] at hrun
  obtain ⟨mp2, hfree, hp2⟩ := dllC_free_alloc hH he hi.tiles (hi.coal rfl) hpool hrun
  exact ⟨mp2, hfree, by rw [hp2.head, hpool.head], by rw [hp2.size, hpool.size], hp2.linked,
    hpool.linked.headers hp2.linked⟩

/-- in the pool of `main` after two allocations the third is handed out at offset 396, and freeing it restores the
header of the free block it came from -/
theorem dllC_alloc_free_restores_main :
    ∃ s mp1 mp2, run (DllC.pool DllC.sizeofMemBlock)
        (fresh (DllC.mempoolInit DllC.sizeofMemBlock (fun _ => ⟨0, none, none, false⟩) 1024))
        [.alloc 100, .alloc 200] = some s ∧
      DllC.mempoolAlloc DllC.sizeofMemBlock s.pool 300 = some (mp1, some 396) ∧
      DllC.mempoolFree DllC.sizeofMemBlock mp1 (some 396) = some mp2 ∧ mp2.head = s.pool.head ∧
      ∃ bs, Linked s.pool.mem none bs ∧ Linked mp2.mem none bs := by
  obtain ⟨s, bs, hs, -, hl, hall⟩ := dllC_alloc_free_restores (fun _ => ⟨0, none, none, false⟩) 1024 (by decide)
    [.alloc 100, .alloc 200]
  have heval : ((run (DllC.pool DllC.sizeofMemBlock)
      (fresh (DllC.mempoolInit DllC.sizeofMemBlock (fun _ => ⟨0, none, none, false⟩) 1024))
      [.alloc 100, .alloc 200]).bind fun s => DllC.mempoolAlloc DllC.sizeofMemBlock s.pool 300).map Prod.snd =
        some (some 396) := by decide +kernel
  obtain ⟨mp1, r, hr, hback⟩ := hall 300
  rw [hs, Option.bind_some, hr] at heval
  obtain rfl : r = some 396 := Option.some.inj heval
  obtain ⟨mp2, hfree, hhead, -, hl2, -⟩ := hback 396 rfl
  exact ⟨s, mp1, mp2, hs, hr, hfree, hhead, bs, hl, hl2⟩

end InterviewPrep.MemoryPool.Doubly
