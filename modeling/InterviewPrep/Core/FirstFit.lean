/-
First-fit allocation from a tiled range, seen by its client, and what it means for an allocator to implement it.

`Policy` is what differs between such allocators: the header size, how a request is rounded, when a free block is split
and how free neighbours are joined after a free. `spec P` is the allocator on block lists that follows policy P.

A client talks to any `Allocator σ` through `step`: it allocates, frees NULL or a pointer it holds, and writes into
the bytes it was given. A pointer the client does not hold is not passed to `free`: such an operation is skipped, so
every operation list stands for a legal client. A write replaces whatever a header read would find at an offset whose
header bytes overlap the written payload (`Junk`); all other headers are left alone. `none` is a loop that does not
stop or a wild access.

Results:
- `step_inv`: in every run of `spec P` the blocks tile the range and the allocated blocks are in bijection
  with the pointers held, each large enough for its request (`Inv`, `Owns`); with full coalescing no two neighbours
  are free;
- `Owns.payload_apart`, `Owns.payload_off_header`: payloads in use are disjoint from each other and from all headers;
- `allocate_undone`: freeing what was just allocated gives the block list back;
- `run_frees_all`: giving back every pointer, in any order, ends with one free block;
- `run_refines`: an allocator that refines `spec P` call by call (`Refines`) does so over whole runs: it never gets
  stuck, returns the same pointers and keeps representing the same block list.
-/
import Mathlib.Tactic
import InterviewPrep.Core.Blocks

namespace InterviewPrep.FirstFit

open Blocks

/-! ## First fit on block lists -/

/-- what differs between first-fit allocators -/
structure Policy where
  /-- header bytes -/
  H : ℕ
  /-- payload bytes looked for on a request -/
  bytes : ℕ → ℕ
  /-- is a free block of size `s` split when `n` bytes are taken? -/
  splits : ℕ → ℕ → Bool
  /-- how the list is tidied after a free -/
  tidy : List Block → List Block
  pos : 0 < H
  room : ∀ n s, splits n s = true → n + H ≤ s
  merges : ∀ bs, Merges H bs (tidy bs)

/-- the free block `b` once `n` bytes have been taken from it -/
def carve (P : Policy) (n : ℕ) (b : Block) : List Block :=
  if P.splits n b.size then [⟨b.off, n, false⟩, ⟨b.off + P.H + n, b.size - n - P.H, true⟩]
  else [⟨b.off, b.size, false⟩]

/-- take `n` bytes from the first free block that has them: payload offset and new list -/
def allocate (P : Policy) (n : ℕ) : List Block → Option (ℕ × List Block)
  | [] => none
  | b :: bs =>
    if b.free && n ≤ b.size then some (b.off + P.H, carve P n b ++ bs)
    else (allocate P n bs).map fun r => (r.1, b :: r.2)

/-- mark the block with payload offset `p` free -/
def release (P : Policy) (p : ℕ) (bs : List Block) : List Block :=
  bs.map fun b => if b.off + P.H = p then { b with free := true } else b

/-- `b` without its allocation -/
def freed (b : Block) : Block := { b with free := true }

/-- **What an allocation does**: nothing, or it carves the first block that fits -/
theorem allocate_cases (P : Policy) (n : ℕ) (bs : List Block) :
    (allocate P n bs = none ∧ ∀ b ∈ bs, ¬ (b.free = true ∧ n ≤ b.size)) ∨
    ∃ as b cs, bs = as ++ b :: cs ∧ b.free = true ∧ n ≤ b.size ∧
      allocate P n bs = some (b.off + P.H, as ++ carve P n b ++ cs) := by
  induction bs with
  | nil => exact Or.inl ⟨rfl, by simp⟩
  | cons b bs ih =>
    by_cases hb : b.free = true ∧ n ≤ b.size
    · exact Or.inr ⟨[], b, bs, rfl, hb.1, hb.2, by simp [allocate, hb.1, hb.2]⟩
    · have hskip : allocate P n (b :: bs) = (allocate P n bs).map fun r => (r.1, b :: r.2) := by
        rw [allocate, if_neg (by simpa using hb)]
      rcases ih with ⟨hn, hall⟩ | ⟨as, c, cs, rfl, hc, hsz, he⟩
      · refine Or.inl ⟨by rw [hskip, hn]; rfl, fun x hx => ?_⟩
        rcases List.mem_cons.1 hx with rfl | hx
        · exact hb
        · exact hall x hx
      · exact Or.inr ⟨b :: as, c, cs, rfl, hc, hsz, by rw [hskip, he]; rfl⟩

/-- a block that does not fit is passed over -/
theorem allocate_skip (P : Policy) {n : ℕ} {b : Block} (bs : List Block) (hb : ¬ (b.free = true ∧ n ≤ b.size)) :
    ((allocate P n (b :: bs)).map Prod.snd).getD (b :: bs) = b :: ((allocate P n bs).map Prod.snd).getD bs ∧
      (allocate P n (b :: bs)).map Prod.fst = (allocate P n bs).map Prod.fst := by
  have hall : allocate P n (b :: bs) = (allocate P n bs).map fun r => (r.1, b :: r.2) := by
    rw [allocate, if_neg (by simpa using hb)]
  rw [hall]
  cases allocate P n bs <;> exact ⟨rfl, rfl⟩

theorem carve_tiles (P : Policy) (n : ℕ) (b : Block) :
    Tiles P.H b.off (carve P n b) (b.off + P.H + b.size) := by
  unfold carve
  split_ifs with hs
  · have := P.room n b.size hs
    refine ⟨rfl, rfl, ?_⟩
    show b.off + P.H + n + P.H + (b.size - n - P.H) = b.off + P.H + b.size
    omega
  · simp [Tiles]

/-- the allocated block of a carving -/
theorem carve_used (P : Policy) (n : ℕ) (b : Block) (hn : n ≤ b.size) :
    ∃ m, n ≤ m ∧ used (carve P n b) = [⟨b.off, m, false⟩] := by
  unfold carve
  split_ifs
  · exact ⟨n, le_rfl, by simp [used]⟩
  · exact ⟨b.size, hn, by simp [used]⟩

theorem carve_tiles_in (P : Policy) (n : ℕ) {as cs : List Block} {b : Block} {a e : ℕ}
    (h : Tiles P.H a (as ++ b :: cs) e) : Tiles P.H a (as ++ carve P n b ++ cs) e := by
  rw [tiles_append] at h
  obtain ⟨m, h1, hb, h2⟩ := h
  rw [List.append_assoc, tiles_append]
  refine ⟨m, h1, (tiles_append _ _ _ _ _).2 ⟨_, ?_, h2⟩⟩
  rw [← hb]; exact carve_tiles P n b

/-- a carved block starts with an allocated block, so no free neighbours appear -/
theorem carve_coalesced (P : Policy) (n : ℕ) {as cs : List Block} {b : Block} (hb : b.free = true)
    (h : Coalesced (as ++ b :: cs)) : Coalesced (as ++ carve P n b ++ cs) := by
  obtain ⟨has, hbc, _⟩ := List.isChain_append.1 h
  obtain ⟨hhd, hcs⟩ := List.isChain_cons.1 hbc
  have hnot : ∀ y ∈ cs.head?, y.free = false := by
    intro y hy
    have := hhd y hy
    simpa [hb] using this
  unfold carve
  split_ifs
  · rw [List.append_assoc]
    refine List.IsChain.append has ?_ ?_
    · refine List.IsChain.cons_cons (by simp) (List.IsChain.cons hcs ?_)
      intro y hy
      simp [hnot y hy]
    · intro x _ y hy
      simp only [List.cons_append, List.head?_cons, Option.mem_def, Option.some.injEq] at hy
      simp [← hy]
  · rw [List.append_assoc]
    refine List.IsChain.append has (List.IsChain.cons hcs fun y _ => by simp) ?_
    intro x _ y hy
    simp only [List.cons_append, List.head?_cons, Option.mem_def, Option.some.injEq] at hy
    simp [← hy]

/-- releasing the block at `p` changes that block and no other -/
theorem release_split (P : Policy) {as cs : List Block} {b : Block} {a e : ℕ} (h : Tiles P.H a (as ++ b :: cs) e) :
    release P (b.off + P.H) (as ++ b :: cs) = as ++ freed b :: cs := by
  obtain ⟨h1, h2⟩ := h.off_ne P.pos
  have hkeep : ∀ l : List Block, (∀ x ∈ l, x.off ≠ b.off) → release P (b.off + P.H) l = l := by
    intro l hl
    refine (List.map_congr_left fun x hx => ?_).trans (List.map_id l)
    have := hl x hx
    rw [if_neg (by omega)]
    rfl
  have happ : release P (b.off + P.H) (as ++ b :: cs) =
      release P (b.off + P.H) as ++ freed b :: release P (b.off + P.H) cs := by
    simp [release, freed]
  rw [happ, hkeep as h1, hkeep cs h2]

theorem release_tiles (P : Policy) (p : ℕ) {bs : List Block} {a e : ℕ} (h : Tiles P.H a bs e) :
    Tiles P.H a (release P p bs) e := by
  induction bs generalizing a with
  | nil => exact h
  | cons b bs ih =>
    simp only [release, List.map_cons]
    split_ifs
    · exact ⟨h.1, ih h.2⟩
    · exact ⟨h.1, ih h.2⟩

theorem used_release (P : Policy) (p : ℕ) (bs : List Block) :
    used (release P p bs) = (used bs).filter fun b => b.off + P.H ≠ p := by
  induction bs with
  | nil => rfl
  | cons b bs ih =>
    by_cases hp : b.off + P.H = p
    · cases hf : b.free <;> simp_all [used, release]
    · cases hf : b.free <;> simp_all [used, release]

/-- **An allocation is undone by freeing its block.** What is carved out of a list without free neighbours is one
allocated block at the pointer handed out; freeing that block and coalescing gives the list back. -/
theorem allocate_undone (P : Policy) {n p : ℕ} {bs bs' : List Block} (hco : Coalesced bs)
    (h : allocate P n bs = some (p, bs')) :
    ∃ as b cs, bs' = as ++ b :: cs ∧ b.free = false ∧ p = b.off + P.H ∧
      coalesce P.H (as ++ freed b :: cs) = bs := by
  rcases allocate_cases P n bs with ⟨hn, -⟩ | ⟨as, b, cs, hbs, hb, -, hs⟩
  · rw [hn] at h
    cases h
  · obtain ⟨rfl, rfl⟩ := Prod.mk.inj (Option.some.inj (hs.symm.trans h))
    rw [hbs] at hco
    unfold carve
    split_ifs with hsp
    · -- the split block and its remainder join to the block they were carved from
      have hroom := P.room n b.size hsp
      have hback : join P.H (freed ⟨b.off, n, false⟩) ⟨b.off + P.H + n, b.size - n - P.H, true⟩ = b := by
        have hsize : n + (P.H + (b.size - n - P.H)) = b.size := by omega
        simp only [join, freed, hsize]
        rw [← hb]
      refine ⟨as, ⟨b.off, n, false⟩, ⟨b.off + P.H + n, b.size - n - P.H, true⟩ :: cs, by simp, rfl, rfl, ?_⟩
      rw [coalesce_append, coalesce_join P.H rfl rfl, hback, ← coalesce_append, coalesce_of_coalesced P.H hco, hbs]
    · have hback : freed ⟨b.off, b.size, false⟩ = b := by
        simp only [freed]
        rw [← hb]
      refine ⟨as, ⟨b.off, b.size, false⟩, cs, by simp, rfl, rfl, ?_⟩
      rw [hback, coalesce_of_coalesced P.H hco, hbs]

/-! ## The client -/

/-- what a header read may find where client bytes have been written -/
structure Junk where
  size : ℕ
  next : Option ℕ
  prev : Option ℕ
  free : Bool
deriving DecidableEq, Repr

/-- an allocator with state `σ`; pointers are payload offsets, NULL is `none` -/
structure Allocator (σ : Type) where
  bytes : ℕ → ℕ
  alloc : σ → ℕ → Option (σ × Option ℕ)
  free : σ → Option ℕ → Option σ
  /-- the client fills the `n` bytes from `p` on -/
  scribble : σ → ℕ → ℕ → (ℕ → Junk) → σ

inductive Op where
  | alloc (n : ℕ)
  | free (p : Option ℕ)
  | write (p : ℕ) (junk : ℕ → Junk)

structure St (σ : Type) where
  pool : σ
  /-- pointers the client holds, with the bytes it may use there -/
  live : List (ℕ × ℕ)
  /-- what `alloc` has returned so far -/
  rets : List (Option ℕ)

/-- the client after `alloc` returned `r` for `n` bytes -/
def took {σ : Type} (s : St σ) (n : ℕ) (pool : σ) : Option ℕ → St σ
  | none => ⟨pool, s.live, s.rets ++ [none]⟩
  | some p => ⟨pool, s.live ++ [(p, n)], s.rets ++ [some p]⟩

def step {σ : Type} (A : Allocator σ) (s : St σ) : Op → Option (St σ)
  | .alloc n => (A.alloc s.pool n).map fun r => took s (A.bytes n) r.1 r.2
  | .free none => (A.free s.pool none).map fun pool => { s with pool := pool }
  | .free (some p) =>
    if p ∈ s.live.map Prod.fst then
      (A.free s.pool (some p)).map fun pool => { s with pool := pool, live := s.live.filter fun l => l.1 ≠ p }
    else some s
  | .write p junk =>
    match s.live.find? fun l => l.1 = p with
    | none => some s
    | some l => some { s with pool := A.scribble s.pool l.1 l.2 junk }

def run {σ : Type} (A : Allocator σ) (s : St σ) (ops : List Op) : Option (St σ) := ops.foldlM (step A) s

theorem run_cons {σ : Type} (A : Allocator σ) (s : St σ) (o : Op) (ops : List Op) :
    run A s (o :: ops) = (step A s o).bind fun s' => run A s' ops := rfl

theorem run_snoc {σ : Type} (A : Allocator σ) (s : St σ) (ops : List Op) (o : Op) :
    run A s (ops ++ [o]) = (run A s ops).bind fun s' => step A s' o := by
  simp [run, List.foldlM_append]

/-- a client that holds nothing yet -/
def fresh {σ : Type} (pool : σ) : St σ := ⟨pool, [], []⟩

/-- the allocator that works on the block list itself -/
def spec (P : Policy) : Allocator (List Block) where
  bytes := P.bytes
  alloc bs n := some (((allocate P (P.bytes n) bs).map Prod.snd).getD bs, (allocate P (P.bytes n) bs).map Prod.fst)
  free bs
    | none => some bs
    | some p => some (P.tidy (release P p bs))
  scribble bs _ _ _ := bs

/-! ## Ownership -/

/-- the pointers held are the payloads of the allocated blocks, one for one, and each block is large enough -/
structure Owns (H : ℕ) (bs : List Block) (live : List (ℕ × ℕ)) : Prop where
  ptrs : (live.map Prod.fst).Perm ((used bs).map fun b => b.off + H)
  fits : ∀ l ∈ live, ∃ b ∈ used bs, b.off + H = l.1 ∧ l.2 ≤ b.size

theorem Owns.block {H : ℕ} {bs : List Block} {live : List (ℕ × ℕ)} (h : Owns H bs live) {p : ℕ}
    (hp : p ∈ live.map Prod.fst) : ∃ b ∈ bs, b.free = false ∧ b.off + H = p := by
  obtain ⟨b, hb, rfl⟩ := List.mem_map.1 (h.ptrs.mem_iff.1 hp)
  exact ⟨b, (mem_used.1 hb).1, (mem_used.1 hb).2, rfl⟩

theorem Owns.live_nodup {H a e : ℕ} {bs : List Block} {live : List (ℕ × ℕ)} (hH : 0 < H) (h : Owns H bs live)
    (ht : Tiles H a bs e) : (live.map Prod.fst).Nodup := by
  have hoff : ((used bs).map Block.off).Nodup := (List.filter_sublist.map _).nodup (ht.offs_nodup hH)
  have : ((used bs).map fun b => b.off + H) = ((used bs).map Block.off).map (· + H) := by simp
  rw [h.ptrs.nodup_iff, this]
  exact hoff.map fun x y hxy => by simpa using hxy

/-- **Payloads in use are disjoint.** -/
theorem Owns.payload_apart {H a e : ℕ} {bs : List Block} {live : List (ℕ × ℕ)} (h : Owns H bs live)
    (ht : Tiles H a bs e) {p n q m : ℕ} (hp : (p, n) ∈ live) (hq : (q, m) ∈ live) (hne : p ≠ q) :
    p + n ≤ q ∨ q + m ≤ p := by
  obtain ⟨b, hb, hbp, hbn⟩ := h.fits _ hp
  obtain ⟨c, hc, hcq, hcm⟩ := h.fits _ hq
  simp only at hbp hbn hcq hcm
  have hbc : b ≠ c := by
    rintro rfl
    exact hne (hbp.symm.trans hcq)
  rcases ht.disjoint (mem_used.1 hb).1 (mem_used.1 hc).1 hbc with hd | hd
  · left; omega
  · right; omega

/-- **Payloads in use do not overlap any header.** -/
theorem Owns.payload_off_header {H a e : ℕ} {bs : List Block} {live : List (ℕ × ℕ)} (h : Owns H bs live)
    (ht : Tiles H a bs e) {p n : ℕ} (hp : (p, n) ∈ live) {c : Block} (hc : c ∈ bs) :
    p + n ≤ c.off ∨ c.off + H ≤ p := by
  obtain ⟨b, hb, hbp, hbn⟩ := h.fits _ hp
  simp only at hbp hbn
  by_cases hbc : b = c
  · subst hbc; right; omega
  · rcases ht.disjoint (mem_used.1 hb).1 hc hbc with hd | hd
    · left; omega
    · right; omega

theorem Owns.alloc {P : Policy} {as cs : List Block} {b : Block} {live : List (ℕ × ℕ)} {n : ℕ}
    (h : Owns P.H (as ++ b :: cs) live) (hb : b.free = true) (hn : n ≤ b.size) :
    Owns P.H (as ++ carve P n b ++ cs) (live ++ [(b.off + P.H, n)]) := by
  obtain ⟨m, hm, hcarve⟩ := carve_used P n b hn
  have hold : used (as ++ b :: cs) = used as ++ used cs := by simp [used, hb]
  have hnew : used (as ++ carve P n b ++ cs) = used as ++ ⟨b.off, m, false⟩ :: used cs := by
    simp [used_append, hcarve]
  refine ⟨?_, fun l hl => ?_⟩
  · rw [hnew, List.map_append, List.map_append, List.map_cons]
    have hp := h.ptrs
    rw [hold, List.map_append] at hp
    refine (List.perm_append_singleton _ _).trans ?_
    exact (hp.cons _).trans List.perm_middle.symm
  · rw [hnew]
    rcases List.mem_append.1 hl with hl | hl
    · obtain ⟨c, hc, h1, h2⟩ := h.fits l hl
      rw [hold] at hc
      refine ⟨c, ?_, h1, h2⟩
      rcases List.mem_append.1 hc with hc | hc
      · exact List.mem_append_left _ hc
      · exact List.mem_append_right _ (List.mem_cons_of_mem _ hc)
    · simp only [List.mem_singleton] at hl
      subst hl
      exact ⟨⟨b.off, m, false⟩, by simp, rfl, hm⟩

theorem Owns.free {P : Policy} {bs : List Block} {live : List (ℕ × ℕ)} (h : Owns P.H bs live) (p : ℕ) :
    Owns P.H (P.tidy (release P p bs)) (live.filter fun l => l.1 ≠ p) := by
  have hused : used (P.tidy (release P p bs)) = (used bs).filter fun b => b.off + P.H ≠ p := by
    rw [(P.merges _).used, used_release]
  refine ⟨?_, fun l hl => ?_⟩
  · rw [hused]
    have := h.ptrs.filter fun q => q ≠ p
    rw [List.filter_map, List.filter_map] at this
    exact this
  · obtain ⟨hl, hne⟩ := List.mem_filter.1 hl
    obtain ⟨b, hb, h1, h2⟩ := h.fits l hl
    refine ⟨b, ?_, h1, h2⟩
    rw [hused, List.mem_filter]
    exact ⟨hb, by rw [h1]; exact hne⟩

/-! ## The invariant of a run -/

/-- the blocks tile [0, e), the client owns the allocated ones, and full coalescing leaves no free neighbours -/
structure Inv (P : Policy) (e : ℕ) (t : St (List Block)) : Prop where
  tiles : Tiles P.H 0 t.pool e
  owns : Owns P.H t.pool t.live
  coal : P.tidy = coalesce P.H → Coalesced t.pool

/-- a pool of one free block -/
def whole (H e : ℕ) : List Block := [⟨0, e - H, true⟩]

theorem inv_whole (P : Policy) (e : ℕ) (he : P.H ≤ e) : Inv P e (fresh (whole P.H e)) := by
  refine ⟨⟨rfl, ?_⟩, ⟨by simp [fresh, whole, used], by simp [fresh]⟩, fun _ => List.isChain_singleton _⟩
  show 0 + P.H + (e - P.H) = e
  omega

theorem inv_nil (P : Policy) : Inv P 0 (fresh []) :=
  ⟨rfl, ⟨by simp [fresh, used], by simp [fresh]⟩, fun _ => List.isChain_nil⟩

theorem step_inv (P : Policy) (e : ℕ) (t : St (List Block)) (o : Op) (h : Inv P e t) :
    ∃ t', step (spec P) t o = some t' ∧ Inv P e t' := by
  cases o with
  | alloc n =>
    rcases allocate_cases P (P.bytes n) t.pool with ⟨hn, -⟩ | ⟨as, b, cs, hbs, hb, hsz, hs⟩
    · exact ⟨_, rfl, by simpa [hn, took, spec] using h.tiles, by simpa [hn, took, spec] using h.owns,
        by simpa [hn, took, spec] using h.coal⟩
    · refine ⟨_, rfl, ?_⟩
      obtain ⟨ht, ho, hc⟩ := h
      rw [hbs] at ht ho hc
      refine ⟨?_, ?_, fun hco => ?_⟩
      · simpa [spec, hs, took] using carve_tiles_in P (P.bytes n) ht
      · simpa [spec, hs, took] using ho.alloc hb hsz
      · simpa [spec, hs, took] using carve_coalesced P (P.bytes n) hb (hc hco)
  | free p =>
    cases p with
    | none => exact ⟨t, rfl, h⟩
    | some p =>
      simp only [step]
      split_ifs
      · refine ⟨_, rfl, (P.merges _).tiles (release_tiles P p h.tiles), h.owns.free p, fun hco => ?_⟩
        show Coalesced (P.tidy _)
        rw [hco]
        exact coalesce_coalesced _ _
      · exact ⟨t, rfl, h⟩
  | write p junk =>
    simp only [step]
    split
    · exact ⟨t, rfl, h⟩
    · exact ⟨_, rfl, h.tiles, h.owns, h.coal⟩

/-- a fully coalesced tiling without allocated blocks is one free block -/
theorem Inv.whole_of_unused {P : Policy} {e : ℕ} {t : St (List Block)} (h : Inv P e t)
    (hco : P.tidy = coalesce P.H) (he : 0 < e) (hl : t.live = []) : t.pool = whole P.H e := by
  have hu : used t.pool = [] := by
    have := h.owns.ptrs
    rw [hl] at this
    simpa using this.length_eq.symm
  have hfree : ∀ b ∈ t.pool, b.free = true := by
    intro b hb
    by_contra hf
    have : b ∈ used t.pool := mem_used.2 ⟨hb, by simpa using hf⟩
    rw [hu] at this
    exact absurd this (by simp)
  have ht := h.tiles
  have hc := h.coal hco
  match hp : t.pool with
  | [] =>
    rw [hp] at ht
    simp only [Tiles] at ht
    omega
  | [b] =>
    rw [hp] at ht
    obtain ⟨hb0, hbe⟩ := ht
    simp only [Tiles] at hbe
    have hbf := hfree b (by simp [hp])
    have hsize : b.size = e - P.H := by omega
    show [b] = [⟨0, e - P.H, true⟩]
    rw [← hsize, ← hb0, ← hbf]
  | b :: c :: l =>
    rw [hp] at hc
    exact absurd ⟨hfree b (by simp [hp]), hfree c (by simp [hp])⟩ (List.isChain_cons_cons.1 hc).1

/-- giving back the pointers of `ps` one after the other -/
def frees (ps : List ℕ) : List Op := ps.map fun p => Op.free (some p)

theorem run_frees_live {P : Policy} {e : ℕ} (ps : List ℕ) (t : St (List Block)) (h : Inv P e t)
    (hps : ps.Perm (t.live.map Prod.fst)) :
    ∃ t', run (spec P) t (frees ps) = some t' ∧ Inv P e t' ∧ t'.live = [] := by
  induction ps generalizing t with
  | nil => exact ⟨t, rfl, h, by simpa using hps.length_eq.symm⟩
  | cons p ps ih =>
    have hp : p ∈ t.live.map Prod.fst := hps.mem_iff.1 List.mem_cons_self
    obtain ⟨t1, h1, hi1⟩ := step_inv P e t (.free (some p)) h
    have hlive : t1.live = t.live.filter fun l => l.1 ≠ p := by
      simp only [step, if_pos hp] at h1
      exact (congrArg St.live (Option.some.inj h1)).symm
    have hnd : (p :: ps).Nodup := hps.nodup_iff.2 (h.owns.live_nodup P.pos h.tiles)
    have hrest : ps.Perm (t1.live.map Prod.fst) := by
      have := hps.filter fun q => q ≠ p
      rw [List.filter_map] at this
      have hkeep : (p :: ps).filter (fun q => decide (q ≠ p)) = ps := by
        rw [List.filter_cons_of_neg (by simp), List.filter_eq_self]
        intro q hq
        simp only [decide_eq_true_eq]
        rintro rfl
        exact (List.nodup_cons.1 hnd).1 hq
      rw [hlive, ← hkeep]
      exact this
    obtain ⟨t2, h2, hi2, hl2⟩ := ih t1 hi1 hrest
    refine ⟨t2, ?_, hi2, hl2⟩
    show run (spec P) t (.free (some p) :: frees ps) = some t2
    rw [run_cons, h1]
    exact h2

/-- **Giving everything back restores the initial pool**, whatever the order of the frees. -/
theorem run_frees_all {P : Policy} {e : ℕ} (hco : P.tidy = coalesce P.H) (he : 0 < e) (ps : List ℕ)
    (t : St (List Block)) (h : Inv P e t) (hps : ps.Perm (t.live.map Prod.fst)) :
    ∃ t', run (spec P) t (frees ps) = some t' ∧ t'.live = [] ∧ t'.pool = whole P.H e := by
  obtain ⟨t', hr, hi, hl⟩ := run_frees_live ps t h hps
  exact ⟨t', hr, hl, hi.whole_of_unused hco he hl⟩

/-! ## Granularity -/

/-- all offsets and sizes are multiples of `k` -/
def Grained (k : ℕ) (bs : List Block) : Prop := ∀ b ∈ bs, k ∣ b.off ∧ k ∣ b.size

theorem grained_append {k : ℕ} {l1 l2 : List Block} : Grained k (l1 ++ l2) ↔ Grained k l1 ∧ Grained k l2 := by
  simp only [Grained, List.mem_append, or_imp, forall_and]
  tauto

theorem grained_cons {k : ℕ} {b : Block} {l : List Block} :
    Grained k (b :: l) ↔ (k ∣ b.off ∧ k ∣ b.size) ∧ Grained k l := by
  simp [Grained]

theorem Merges.grained {k H : ℕ} (hk : k ∣ H) {l l' : List Block} (h : Merges H l l') (hg : Grained k l) :
    Grained k l' := by
  induction h with
  | refl => exact hg
  | tail _ hj ih =>
    obtain ⟨as, bs, a, b, _, _⟩ := hj
    simp only [grained_append, grained_cons] at ih ⊢
    obtain ⟨has, ⟨hao, hasz⟩, ⟨_, hbsz⟩, hbs⟩ := ih
    exact ⟨has, ⟨hao, Dvd.dvd.add hasz (hk.add hbsz)⟩, hbs⟩

theorem carve_grained {k n : ℕ} {P : Policy} (hk : k ∣ P.H) (hn : k ∣ n) {b : Block} (hb : k ∣ b.off ∧ k ∣ b.size) :
    Grained k (carve P n b) := by
  unfold carve
  split_ifs
  · simp only [grained_cons]
    exact ⟨⟨hb.1, hn⟩, ⟨(hb.1.add hk).add hn, Nat.dvd_sub (Nat.dvd_sub hb.2 hn) hk⟩, by simp [Grained]⟩
  · simp only [grained_cons]
    exact ⟨hb, by simp [Grained]⟩

theorem release_grained {k : ℕ} (P : Policy) (p : ℕ) {bs : List Block} (h : Grained k bs) :
    Grained k (release P p bs) := by
  intro b hb
  obtain ⟨c, hc, rfl⟩ := List.mem_map.1 hb
  split_ifs
  · exact h c hc
  · exact h c hc

/-- the blocks and everything handed out so far are multiples of `k` -/
structure GrainedSt (k : ℕ) (t : St (List Block)) : Prop where
  blocks : Grained k t.pool
  rets : ∀ p, some p ∈ t.rets → k ∣ p

theorem step_grained {k : ℕ} {P : Policy} (hH : k ∣ P.H) (hb : ∀ n, k ∣ P.bytes n) (o : Op) {t t' : St (List Block)}
    (h : GrainedSt k t) (hs : step (spec P) t o = some t') : GrainedSt k t' := by
  cases o with
  | alloc n =>
    obtain rfl : took t (P.bytes n) _ _ = t' := Option.some.inj hs
    rcases allocate_cases P (P.bytes n) t.pool with ⟨hn, -⟩ | ⟨as, b, cs, hbs, -, -, hall⟩
    · refine ⟨by simpa [hn, took] using h.blocks, fun p hp => ?_⟩
      exact h.rets p (by simpa [hn, took] using hp)
    · have hg := h.blocks
      rw [hbs, grained_append, grained_cons] at hg
      obtain ⟨has, hbk, hcs⟩ := hg
      refine ⟨?_, fun p hp => ?_⟩
      · have : Grained k (as ++ carve P (P.bytes n) b ++ cs) :=
          grained_append.2 ⟨grained_append.2 ⟨has, carve_grained hH (hb n) hbk⟩, hcs⟩
        simpa [hall, took] using this
      · simp only [hall, took, Option.map_some, List.mem_append, List.mem_singleton, Option.some.injEq] at hp
        rcases hp with hp | rfl
        · exact h.rets p hp
        · exact hbk.1.add hH
  | free p =>
    cases p with
    | none =>
      obtain rfl : t = t' := Option.some.inj hs
      exact h
    | some p =>
      simp only [step] at hs
      split_ifs at hs with hp
      · obtain rfl := Option.some.inj hs
        exact ⟨Merges.grained hH (P.merges _) (release_grained P p h.blocks), h.rets⟩
      · obtain rfl := Option.some.inj hs
        exact h
  | write p junk =>
    simp only [step] at hs
    split at hs
    · obtain rfl := Option.some.inj hs
      exact h
    · obtain rfl := Option.some.inj hs
      exact ⟨h.blocks, h.rets⟩

theorem run_grained {k : ℕ} {P : Policy} (hH : k ∣ P.H) (hb : ∀ n, k ∣ P.bytes n) (ops : List Op)
    {t t' : St (List Block)} (h : GrainedSt k t) (hr : run (spec P) t ops = some t') : GrainedSt k t' := by
  induction ops generalizing t with
  | nil =>
    obtain rfl : t = t' := Option.some.inj hr
    exact h
  | cons o ops ih =>
    rw [run_cons] at hr
    obtain ⟨t1, h1, hr⟩ := Option.bind_eq_some_iff.1 hr
    exact ih (step_grained hH hb o h h1) hr

/-! ## Implementations -/

/-- `A`, in the states that represent a block list, follows `spec P` call by call -/
structure Refines {σ : Type} (P : Policy) (e : ℕ) (A : Allocator σ) (R : σ → List Block → Prop) : Prop where
  bytes : A.bytes = P.bytes
  alloc : ∀ s bs n, Tiles P.H 0 bs e → R s bs →
    ∃ s', A.alloc s n = some (s', (allocate P (P.bytes n) bs).map Prod.fst) ∧
      R s' (((allocate P (P.bytes n) bs).map Prod.snd).getD bs)
  free : ∀ s as b cs, Tiles P.H 0 (as ++ b :: cs) e → (P.tidy = coalesce P.H → Coalesced (as ++ b :: cs)) →
    R s (as ++ b :: cs) → b.free = false →
    ∃ s', A.free s (some (b.off + P.H)) = some s' ∧ R s' (P.tidy (as ++ freed b :: cs))
  scribble : ∀ s bs p n junk, Tiles P.H 0 bs e → R s bs → (∀ b ∈ bs, p + n ≤ b.off ∨ b.off + P.H ≤ p) →
    R (A.scribble s p n junk) bs

/-- the client sees the same, and the pool represents the same blocks -/
structure Agrees {σ : Type} (R : σ → List Block → Prop) (s : St σ) (t : St (List Block)) : Prop where
  pool : R s.pool t.pool
  live : s.live = t.live
  rets : s.rets = t.rets

theorem fresh_agrees {σ : Type} {R : σ → List Block → Prop} {pool : σ} {bs : List Block} (h : R pool bs) :
    Agrees R (fresh pool) (fresh bs) := ⟨h, rfl, rfl⟩

theorem took_agrees {σ : Type} {R : σ → List Block → Prop} {s : St σ} {t : St (List Block)} (h : Agrees R s t) (n : ℕ)
    {s' : σ} {t' : List Block} (hR : R s' t') (r : Option ℕ) : Agrees R (took s n s' r) (took t n t' r) := by
  cases r with
  | none => exact ⟨hR, h.live, by simp [took, h.rets]⟩
  | some p => exact ⟨hR, by simp [took, h.live], by simp [took, h.rets]⟩

theorem step_refines {σ : Type} {P : Policy} {e : ℕ} {A : Allocator σ} {R : σ → List Block → Prop}
    (hA : Refines P e A R) (o : Op) (hnull : o = .free none → ∀ s, A.free s none = some s) {s : St σ}
    {t : St (List Block)} (ht : Inv P e t) (h : Agrees R s t) :
    ∃ s' t', step A s o = some s' ∧ step (spec P) t o = some t' ∧ Agrees R s' t' := by
  cases o with
  | alloc n =>
    obtain ⟨s', hs', hR⟩ := hA.alloc s.pool t.pool n ht.tiles h.pool
    refine ⟨took s (P.bytes n) s' _, took t (P.bytes n) _ _, ?_, rfl, took_agrees h _ hR _⟩
    simp only [step, hs', Option.map_some, hA.bytes]
  | free p =>
    cases p with
    | none =>
      refine ⟨s, t, ?_, rfl, h⟩
      simp [step, hnull rfl]
    | some p =>
      by_cases hp : p ∈ t.live.map Prod.fst
      · obtain ⟨b, hb, hbf, rfl⟩ := ht.owns.block hp
        obtain ⟨as, cs, hbs⟩ := List.append_of_mem hb
        have hpool := h.pool
        have htl := ht.tiles
        have hco := ht.coal
        rw [hbs] at hpool htl hco
        obtain ⟨s', hs', hR⟩ := hA.free s.pool as b cs htl hco hpool hbf
        refine ⟨{ s with pool := s', live := s.live.filter fun l => l.1 ≠ b.off + P.H },
          { t with pool := P.tidy (as ++ freed b :: cs), live := t.live.filter fun l => l.1 ≠ b.off + P.H },
          ?_, ?_, hR, ?_, h.rets⟩
        · simp only [step, h.live, if_pos hp, hs', Option.map_some]
        · simp only [step, if_pos hp, spec, hbs, release_split P htl, Option.map_some]
        · show s.live.filter _ = t.live.filter _
          rw [h.live]
      · exact ⟨s, t, by simp only [step, h.live, if_neg hp], by simp only [step, if_neg hp], h⟩
  | write p junk =>
    simp only [step, h.live]
    cases hf : t.live.find? fun l => l.1 = p with
    | none => exact ⟨s, t, rfl, rfl, h⟩
    | some l =>
      refine ⟨_, _, rfl, rfl, ?_, rfl, h.rets⟩
      refine hA.scribble _ _ _ _ _ ht.tiles h.pool fun b hb => ?_
      exact ht.owns.payload_off_header ht.tiles (List.mem_of_find?_eq_some hf) hb

/-- **Refinement over whole runs.** An allocator that follows `spec P` call by call never gets stuck, returns the same
pointers and represents the same blocks after any list of operations. -/
theorem run_refines {σ : Type} {P : Policy} {e : ℕ} {A : Allocator σ} {R : σ → List Block → Prop}
    (hA : Refines P e A R) (ops : List Op) (hnull : Op.free none ∈ ops → ∀ s, A.free s none = some s) {s : St σ}
    {t : St (List Block)} (ht : Inv P e t) (h : Agrees R s t) :
    ∃ s' t', run A s ops = some s' ∧ run (spec P) t ops = some t' ∧ Agrees R s' t' ∧ Inv P e t' := by
  induction ops generalizing s t with
  | nil => exact ⟨s, t, rfl, rfl, h, ht⟩
  | cons o ops ih =>
    obtain ⟨s1, t1, hs1, ht1, h1⟩ := step_refines hA o (fun ho => hnull (ho ▸ List.mem_cons_self)) ht h
    obtain ⟨t1', ht1', hi1⟩ := step_inv P e t o ht
    rw [ht1] at ht1'
    cases ht1'
    obtain ⟨s2, t2, hs2, ht2, h2, hi2⟩ := ih (fun ho => hnull (List.mem_cons_of_mem _ ho)) hi1 h1
    exact ⟨s2, t2, by rw [run_cons, hs1]; exact hs2, by rw [run_cons, ht1]; exact ht2, h2, hi2⟩

end InterviewPrep.FirstFit
