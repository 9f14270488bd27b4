/-
The pool variants against each other.

- `memorypoolDLL.c` and `memorypoolSLL.c` (`dll_sll_agree`): local joins on one side, a scan of the whole list on the
  other. Both implement the same first-fit policy, so with the same header size they return the same offsets and list
  the same blocks, over every run and for every pool size.
- `memorypoolSLL.cpp` and `memorypoolSLL.c` (`cpp_agrees_iff`): the C++ loop moves on after a merge. A block freed
  between two free blocks is therefore joined with the first one only: `cpp_keeps_free_neighbours` is such a run. In
  every run in which no block is freed between two free blocks the two files agree, and in no other run.
- The C++ constructors (`cpp_in_bounds_iff`): `poolSize - sizeof(MemBlock)` is computed without the check the C files
  make. From `sizeof(MemBlock)` on every header and payload stays inside the pool; below it the first header already
  does not (`cpp_out_of_bounds`).
-/
import Mathlib.Tactic
import InterviewPrep.Core.FirstFit
import InterviewPrep.MemoryPool.Singly
import InterviewPrep.MemoryPool.Doubly

namespace InterviewPrep.MemoryPool.Agreement

open Blocks FirstFit
open Singly (first Listed sllPolicy onePassPolicy)

/-! ## memorypoolDLL.c against memorypoolSLL.c -/

/-- **The two C pools agree.** With the same header size, for every pool size and every run, both pools return the same
offset, or NULL, at every allocation, leave the client with the same pointers, and list the same blocks (offset, size,
free) from `head`. -/
theorem dll_sll_agree (H size : ℕ) (hH : 0 < H) (hlt : size < 2 ^ 64) (dmem : ℕ → Doubly.MemBlock)
    (smem : ℕ → Singly.MemBlock) (ops : List Op) :
    ∃ d s bs, run (Doubly.DllC.pool H) (fresh (Doubly.DllC.mempoolInit H dmem size)) ops = some d ∧
      run (Singly.SllC.pool H) (fresh (Singly.SllC.mempoolInit H smem size)) ops = some s ∧
      d.rets = s.rets ∧ d.live = s.live ∧
      (d.pool.head = first bs ∧ Doubly.Linked d.pool.mem none bs) ∧
      (s.pool.head = first bs ∧ Listed s.pool.mem bs) := by
  -- both start from the same block list, empty when the size is refused
  obtain ⟨e, bs0, he, hi, hd, hs⟩ : ∃ e bs0, e < 2 ^ 64 ∧ Inv (sllPolicy H hH) e (fresh bs0) ∧
      Doubly.Pool e (Doubly.DllC.mempoolInit H dmem size) bs0 ∧
      Singly.Pool e (Singly.SllC.mempoolInit H smem size) bs0 := by
    rcases Nat.lt_or_ge H size with hsz | hsz
    · exact ⟨size, whole H size, hlt, inv_whole (sllPolicy H hH) size hsz.le,
        Doubly.DllC.init_pool H dmem size hsz hlt, Singly.SllC.init_pool H smem size hsz hlt⟩
    · exact ⟨0, [], by decide, inv_nil _, Doubly.DllC.init_pool_small H dmem size hsz,
        Singly.SllC.init_pool_small H smem size hsz⟩
  obtain ⟨d, t, hrd, ht, had, -⟩ :=
    run_refines (Doubly.dllC_refines H e hH he) ops (fun _ _ => rfl) hi (fresh_agrees hd)
  obtain ⟨s, t', hrs, ht', has, -⟩ :=
    run_refines (Singly.sllC_refines H e hH he) ops (fun _ _ => rfl) hi (fresh_agrees hs)
  obtain rfl : t = t' := Option.some.inj (ht.symm.trans ht')
  exact ⟨d, s, t.pool, hrd, hrs, had.rets.trans has.rets.symm, had.live.trans has.live.symm,
    ⟨had.pool.head, had.pool.linked⟩, has.pool.head, has.pool.listed⟩

/-- at a header size of 24 bytes, for a run with a merge on both sides -/
theorem dll_sll_agree_merge :
    ∃ d s bs, run (Doubly.DllC.pool 24) (fresh (Doubly.DllC.mempoolInit 24 (fun _ => ⟨0, none, none, false⟩) 1024))
        [.alloc 100, .alloc 200, .alloc 300, .free (some 24), .free (some 372), .free (some 148)] = some d ∧
      run (Singly.SllC.pool 24) (fresh (Singly.SllC.mempoolInit 24 (fun _ => ⟨0, none, false⟩) 1024))
        [.alloc 100, .alloc 200, .alloc 300, .free (some 24), .free (some 372), .free (some 148)] = some s ∧
      d.rets = s.rets ∧ Doubly.Linked d.pool.mem none bs ∧ Listed s.pool.mem bs := by
  obtain ⟨d, s, bs, hd, hs, hr, -, ⟨-, hl⟩, -, hl'⟩ := dll_sll_agree 24 1024 (by decide) (by decide)
    (fun _ => ⟨0, none, none, false⟩) (fun _ => ⟨0, none, false⟩)
    [.alloc 100, .alloc 200, .alloc 300, .free (some 24), .free (some 372), .free (some 148)]
  exact ⟨d, s, bs, hd, hs, hr, hl, hl'⟩

/-! ## memorypoolSLL.cpp against memorypoolSLL.c -/

/-- the block at payload offset `p` lies between two free blocks of the list -/
def Between (H p : ℕ) (bs : List Block) : Prop :=
  ∃ as x b y cs, bs = as ++ x :: b :: y :: cs ∧ b.off + H = p ∧ x.free = true ∧ y.free = true

/-- the same, read off the headers of a pool -/
def Wedged (H p : ℕ) (mp : Singly.MemPool) : Prop :=
  ∃ bs, mp.head = first bs ∧ Listed mp.mem bs ∧ Between H p bs

/-- both pools after `ops`: the same offsets returned, and after a free the same blocks, no two free neighbours -/
def SameAfter (H size : ℕ) (cmem xmem : ℕ → Singly.MemBlock) (ops : List Op) : Prop :=
  ∃ c x, run (Singly.SllC.pool H) (fresh (Singly.SllC.mempoolInit H cmem size)) ops = some c ∧
    run (Singly.SllCpp.pool H) (fresh (Singly.SllCpp.memPool H xmem size)) ops = some x ∧ c.rets = x.rets ∧
    ((∃ pre p, ops = pre ++ [.free (some p)]) → ∃ bs, (c.pool.head = first bs ∧ Listed c.pool.mem bs) ∧
      (x.pool.head = first bs ∧ Listed x.pool.mem bs) ∧ Coalesced bs)

/-- no call of the run frees a block that lies between two free blocks at that moment -/
def NeverWedged (H size : ℕ) (xmem : ℕ → Singly.MemBlock) (ops : List Op) : Prop :=
  ∀ pre p, pre ++ [.free (some p)] <+: ops → ∀ x,
    run (Singly.SllCpp.pool H) (fresh (Singly.SllCpp.memPool H xmem size)) pre = some x →
    p ∈ x.live.map Prod.fst → ¬ Wedged H p x.pool

theorem NeverWedged.init {H size : ℕ} {xmem : ℕ → Singly.MemBlock} {ops : List Op} {o : Op}
    (h : NeverWedged H size xmem (ops ++ [o])) : NeverWedged H size xmem ops := by
  intro pre p hpre
  exact h pre p (hpre.trans (List.prefix_append ops [o]))

/-- an allocation does not depend on how frees are tidied -/
theorem allocate_onePass (H : ℕ) (hH : 0 < H) (n : ℕ) (bs : List Block) :
    allocate (onePassPolicy H hH) n bs = allocate (sllPolicy H hH) n bs := by
  induction bs with
  | nil => rfl
  | cons b bs ih =>
    simp only [allocate, ih]
    rfl

/-- around a freed block, one pass and full coalescing differ exactly when it lies between two free blocks -/
theorem onePass_eq_iff {H e : ℕ} (hH : 0 < H) {as cs : List Block} {b : Block} (ht : Tiles H 0 (as ++ b :: cs) e)
    (hco : Coalesced (as ++ b :: cs)) :
    coalesceOnce H (as ++ freed b :: cs) = coalesce H (as ++ freed b :: cs) ↔
      ¬ Between H (b.off + H) (as ++ b :: cs) := by
  rw [coalesceOnce_eq_iff H rfl hco.left_of_append (List.isChain_cons.1 hco.right_of_append).2, not_iff_not]
  constructor
  · rintro ⟨⟨x, hx, hxf⟩, y, hy, hyf⟩
    cases as using List.reverseRecOn with
    | nil => simp at hx
    | append_singleton as z =>
      cases cs with
      | nil => simp at hy
      | cons w cs =>
        simp only [List.getLast?_append, List.getLast?_singleton, Option.some_or, Option.mem_def,
          Option.some.injEq, List.head?_cons] at hx hy
        subst hx hy
        exact ⟨as, z, b, w, cs, by simp, rfl, hxf, hyf⟩
  · rintro ⟨as', x, b', y, cs', hbs, hoff, hxf, hyf⟩
    have hb' : b' = b := by
      refine ht.off_inj hH ?_ (by simp) (by omega)
      rw [hbs]; simp
    subst hb'
    obtain ⟨hnas, hncs⟩ := ht.off_ne hH
    have hsplit : as ++ b' :: cs = (as' ++ [x]) ++ b' :: (y :: cs') := by simpa using hbs
    obtain ⟨rfl, -, rfl⟩ := (List.append_cons_inj_of_notMem (fun hm => hnas b' hm rfl) (fun hm => hncs b' hm rfl)).1 hsplit
    exact ⟨⟨x, by simp, hxf⟩, y, by simp, hyf⟩

/-- what a free of a held pointer does in the specification -/
theorem step_free_pool (P : Policy) {e : ℕ} {t t' : St (List Block)} (ht : Inv P e t) {as cs : List Block} {b : Block}
    (hbs : t.pool = as ++ b :: cs) (hp : b.off + P.H ∈ t.live.map Prod.fst)
    (h : step (spec P) t (.free (some (b.off + P.H))) = some t') :
    t' = ⟨P.tidy (as ++ freed b :: cs), t.live.filter fun l => l.1 ≠ b.off + P.H, t.rets⟩ := by
  have htl := ht.tiles
  rw [hbs] at htl
  simp only [step, if_pos hp, spec, hbs, release_split P htl, Option.map_some, Option.some.injEq] at h
  exact h.symm

/-- the two specifications leave the same blocks after the free of a held pointer exactly when its block does not lie
between two free blocks -/
theorem free_onePass_iff {H e : ℕ} (hH : 0 < H) {t t' t'' : St (List Block)} (ht : Inv (sllPolicy H hH) e t) {p : ℕ}
    (hp : p ∈ t.live.map Prod.fst) (h1 : step (spec (onePassPolicy H hH)) t (.free (some p)) = some t')
    (h2 : step (spec (sllPolicy H hH)) t (.free (some p)) = some t'') :
    t'.pool = t''.pool ↔ ¬ Between H p t.pool := by
  obtain ⟨b, hb, -, rfl⟩ := ht.owns.block hp
  obtain ⟨as, cs, hbs⟩ := List.append_of_mem hb
  have htl := ht.tiles
  have hco := ht.coal rfl
  rw [hbs] at htl hco
  have hone : Inv (onePassPolicy H hH) e t := ⟨ht.tiles, ht.owns, fun _ => ht.coal rfl⟩
  rw [step_free_pool _ hone hbs hp h1, step_free_pool _ ht hbs hp h2, hbs]
  exact onePass_eq_iff hH htl hco

/-- the two specifications take the same step unless it frees a block between two free blocks -/
theorem step_onePass {H e : ℕ} (hH : 0 < H) {t t' t'' : St (List Block)} (ht : Inv (sllPolicy H hH) e t) (o : Op)
    (h1 : step (spec (onePassPolicy H hH)) t o = some t') (h2 : step (spec (sllPolicy H hH)) t o = some t'')
    (ho : ∀ p, o = .free (some p) → p ∈ t.live.map Prod.fst → ¬ Between H p t.pool) : t' = t'' := by
  cases o with
  | alloc n =>
    simp only [step, spec, allocate_onePass] at h1 h2
    exact Option.some.inj (h1.symm.trans h2)
  | free p =>
    cases p with
    | none => exact Option.some.inj (h1.symm.trans h2)
    | some p =>
      by_cases hp : p ∈ t.live.map Prod.fst
      · have hpool := (free_onePass_iff hH ht hp h1 h2).2 (ho p rfl hp)
        simp only [step, if_pos hp, spec, Option.map_some, Option.some.injEq] at h1 h2
        subst h1 h2
        exact congrArg (fun pool => St.mk pool _ _) hpool
      · simp only [step, if_neg hp] at h1 h2
        exact Option.some.inj (h1.symm.trans h2)
  | write p junk => exact Option.some.inj (h1.symm.trans h2)

theorem Inv.onePass {H e : ℕ} {hH : 0 < H} {t : St (List Block)} (h : Inv (sllPolicy H hH) e t) :
    Inv (onePassPolicy H hH) e t :=
  ⟨h.tiles, h.owns, fun _ => h.coal rfl⟩

/-- while no freed block lies between two free blocks, both pools represent one and the same block list -/
theorem run_both {H size : ℕ} (hH : 0 < H) (hsz : H < size) (hlt : size < 2 ^ 64) (cmem xmem : ℕ → Singly.MemBlock)
    (ops : List Op) (hnull : Op.free none ∉ ops) (hnw : NeverWedged H size xmem ops) :
    ∃ c x t, run (Singly.SllC.pool H) (fresh (Singly.SllC.mempoolInit H cmem size)) ops = some c ∧
      run (Singly.SllCpp.pool H) (fresh (Singly.SllCpp.memPool H xmem size)) ops = some x ∧
      Agrees (Singly.Pool size) c t ∧ Agrees (Singly.Pool size) x t ∧ Inv (sllPolicy H hH) size t := by
  induction ops using List.reverseRecOn with
  | nil =>
    exact ⟨_, _, _, rfl, rfl, fresh_agrees (Singly.SllC.init_pool H cmem size hsz hlt),
      fresh_agrees (Singly.SllCpp.init_pool H xmem size hsz.le hlt), inv_whole (sllPolicy H hH) size hsz.le⟩
  | append_singleton ops o ih =>
    obtain ⟨c, x, t, hc, hx, hct, hxt, hi⟩ := ih (fun hm => hnull (List.mem_append_left _ hm)) hnw.init
    have ho : o ≠ .free none := by
      rintro rfl
      exact hnull (by simp)
    obtain ⟨c', t', hc', ht', hct'⟩ :=
      step_refines (Singly.sllC_refines H size hH hlt) o (fun _ _ => rfl) hi hct
    obtain ⟨x', t'', hx', ht'', hxt'⟩ :=
      step_refines (Singly.sllCpp_refines H size hH hlt) o (fun hno => absurd hno ho) (Inv.onePass hi) hxt
    obtain ⟨t3, ht3, hi3⟩ := step_inv (sllPolicy H hH) size t o hi
    obtain rfl : t'' = t' := by
      refine step_onePass hH hi o ht'' ht' fun p hop hp hbet => ?_
      subst hop
      refine hnw ops p List.prefix_rfl x hx (by rw [hxt.live]; exact hp) ?_
      exact ⟨t.pool, hxt.pool.head, hxt.pool.listed, hbet⟩
    obtain rfl : t'' = t3 := Option.some.inj (ht'.symm.trans ht3)
    refine ⟨c', x', t'', ?_, ?_, hct', hxt', hi3⟩
    · rw [run_snoc, hc]; exact hc'
    · rw [run_snoc, hx]; exact hx'

/-- **The C++ single pass against the C loop.** For every pool larger than a header and every run, the two files return
the same offsets throughout and list the same fully coalesced blocks after every free, exactly when no call of the run
frees a block that lies between two free blocks. -/
theorem cpp_agrees_iff (H size : ℕ) (hH : 0 < H) (hsz : H < size) (hlt : size < 2 ^ 64)
    (cmem xmem : ℕ → Singly.MemBlock) (ops : List Op) (hnull : Op.free none ∉ ops) :
    (∀ pre, pre <+: ops → SameAfter H size cmem xmem pre) ↔ NeverWedged H size xmem ops := by
  constructor
  · intro hsame
    induction ops using List.reverseRecOn with
    | nil =>
      intro pre p hpre
      exact absurd hpre (by simp)
    | append_singleton ops o ih =>
      have hnull' : Op.free none ∉ ops := fun hm => hnull (List.mem_append_left _ hm)
      have hnw := ih hnull' fun pre hpre => hsame pre (hpre.trans (List.prefix_append ops [o]))
      intro pre p hpre x hx hp hw
      rcases List.prefix_concat_iff.1 hpre with heq | hpre'
      · obtain ⟨rfl, ho⟩ := List.append_inj' heq rfl
        simp only [List.cons.injEq, and_true] at ho
        subst ho
        obtain ⟨c1, x1, t, hc1, hx1, hct, hxt, hi⟩ := run_both hH hsz hlt cmem xmem pre hnull' hnw
        obtain rfl : x = x1 := Option.some.inj (hx.symm.trans hx1)
        -- the list read off the headers is the one both pools represent
        obtain ⟨bs, hbh, hbl, hbet⟩ := hw
        obtain rfl : bs = t.pool := hbl.unique hxt.pool.listed (hbh.symm.trans hxt.pool.head)
        obtain ⟨c', t', hc', ht', hct'⟩ :=
          step_refines (Singly.sllC_refines H size hH hlt) (.free (some p)) (fun _ _ => rfl) hi hct
        obtain ⟨x', t'', hx', ht'', hxt'⟩ :=
          step_refines (Singly.sllCpp_refines H size hH hlt) (.free (some p)) (fun hno => by cases hno) (Inv.onePass hi) hxt
        -- after the call they still list the same blocks, so the two specifications took the same step
        obtain ⟨c2, x2, hc2, hx2, -, hblocks⟩ := hsame (pre ++ [.free (some p)]) List.prefix_rfl
        obtain ⟨bs', ⟨hch, hcl⟩, ⟨hxh, hxl⟩, -⟩ := hblocks ⟨pre, p, rfl⟩
        rw [run_snoc, hc1] at hc2
        rw [run_snoc, hx1] at hx2
        obtain rfl : c' = c2 := Option.some.inj (hc'.symm.trans hc2)
        obtain rfl : x' = x2 := Option.some.inj (hx'.symm.trans hx2)
        have h1 : bs' = t'.pool := hcl.unique hct'.pool.listed (hch.symm.trans hct'.pool.head)
        have h2 : bs' = t''.pool := hxl.unique hxt'.pool.listed (hxh.symm.trans hxt'.pool.head)
        exact (free_onePass_iff hH hi (hxt.live ▸ hp) ht'' ht').1 (h2.symm.trans h1) hbet
      · exact hnw pre p hpre' x hx hp hw
  · intro hnw pre hpre
    have hnw' : NeverWedged H size xmem pre := fun pre' p hpre' => hnw pre' p (hpre'.trans hpre)
    obtain ⟨c, x, t, hc, hx, hct, hxt, hi⟩ :=
      run_both hH hsz hlt cmem xmem pre (fun hm => hnull (hpre.subset hm)) hnw'
    refine ⟨c, x, hc, hx, hct.rets.trans hxt.rets.symm, fun _ => ?_⟩
    exact ⟨t.pool, ⟨hct.pool.head, hct.pool.listed⟩, ⟨hxt.pool.head, hxt.pool.listed⟩, hi.coal rfl⟩

/-- for the calls of `main` in `memorypoolSLL.cpp`, which free the last block only -/
theorem cpp_agrees_iff_main :
    (∀ pre, pre <+: [Op.alloc 100, .alloc 200, .alloc 300, .free (some 372)] →
      SameAfter 24 1024 (fun _ => ⟨0, none, false⟩) (fun _ => ⟨0, none, false⟩) pre) ↔
    NeverWedged 24 1024 (fun _ => ⟨0, none, false⟩) [.alloc 100, .alloc 200, .alloc 300, .free (some 372)] :=
  cpp_agrees_iff 24 1024 (by decide) (by decide) (by decide) _ _ _ (by simp)

/-- three blocks in a row, the outer two freed before the middle one -/
def middleLast : List Op := [.alloc 100, .alloc 200, .alloc 300, .free (some 24), .free (some 372), .free (some 148)]

/-- **The C++ pool keeps free neighbours.** When the middle of three blocks is freed last, the C pool is one free block
of 1000 bytes again. The C++ pool has joined the middle block with the first one and stepped over the third: two free
blocks of 324 and 652 bytes, so an allocation of 1000 bytes succeeds in the C pool and fails in the C++ pool. -/
theorem cpp_keeps_free_neighbours :
    (run (Singly.SllC.pool 24) (fresh (Singly.SllC.mempoolInit 24 (fun _ => ⟨0, none, false⟩) 1024))
      middleLast).map (fun s => s.pool.mem 0) = some ⟨1000, none, true⟩ ∧
    (run (Singly.SllCpp.pool 24) (fresh (Singly.SllCpp.memPool 24 (fun _ => ⟨0, none, false⟩) 1024))
      middleLast).map (fun s => (s.pool.mem 0, s.pool.mem 348)) =
        some (⟨324, some 348, true⟩, ⟨652, none, true⟩) ∧
    (run (Singly.SllC.pool 24) (fresh (Singly.SllC.mempoolInit 24 (fun _ => ⟨0, none, false⟩) 1024))
      (middleLast ++ [.alloc 1000])).map (fun s => s.rets) = some [some 24, some 148, some 372, some 24] ∧
    (run (Singly.SllCpp.pool 24) (fresh (Singly.SllCpp.memPool 24 (fun _ => ⟨0, none, false⟩) 1024))
      (middleLast ++ [.alloc 1000])).map (fun s => s.rets) = some [some 24, some 148, some 372, none] ∧
    ¬ SameAfter 24 1024 (fun _ => ⟨0, none, false⟩) (fun _ => ⟨0, none, false⟩) middleLast := by
  have hc : (run (Singly.SllC.pool 24) (fresh (Singly.SllC.mempoolInit 24 (fun _ => ⟨0, none, false⟩) 1024))
      middleLast).map (fun s => (s.pool.head, s.pool.mem 0)) = some (some 0, ⟨1000, none, true⟩) := by decide
  have hx : (run (Singly.SllCpp.pool 24) (fresh (Singly.SllCpp.memPool 24 (fun _ => ⟨0, none, false⟩) 1024))
      middleLast).map (fun s => (s.pool.head, s.pool.mem 0)) = some (some 0, ⟨324, some 348, true⟩) := by decide
  refine ⟨by decide, by decide, by decide, by decide, ?_⟩
  rintro ⟨c, x, hrc, hrx, -, hblocks⟩
  obtain ⟨bs, ⟨hch, hcl⟩, ⟨-, hxl⟩, -⟩ := hblocks
    ⟨[.alloc 100, .alloc 200, .alloc 300, .free (some 24), .free (some 372)], 148, rfl⟩
  rw [hrc] at hc
  rw [hrx] at hx
  simp only [Option.map_some, Option.some.injEq, Prod.mk.injEq] at hc hx
  -- both lists start at offset 0, where the headers differ
  cases bs with
  | nil => rw [hc.1] at hch; simp [first] at hch
  | cons b bs =>
    have hb : b.off = 0 := by rw [hc.1] at hch; simpa [first] using hch.symm
    have h1 := hcl.1
    have h2 := hxl.1
    rw [hb, hc.2] at h1
    rw [hb, hx.2, ← h1] at h2
    exact absurd h2 (by decide)

/-! ## The C++ constructors -/

/-- the headers of `bs` and the payloads handed out lie inside the pool -/
def Inside (H poolSize : ℕ) (bs : List Block) (live : List (ℕ × ℕ)) : Prop :=
  (∀ b ∈ bs, b.off + H ≤ poolSize ∧ (b.free = false → b.off + H + b.size ≤ poolSize)) ∧
    ∀ l ∈ live, l.1 + l.2 ≤ poolSize

/-- a run of `memorypoolDLL.cpp` ends, with everything inside the pool -/
def DllInBounds (mem : ℕ → Doubly.MemBlock) (size : ℕ) (ops : List Op) : Prop :=
  ∃ s bs, run (Doubly.DllCpp.pool Doubly.DllCpp.sizeofMemBlock)
      (fresh (Doubly.DllCpp.memPool Doubly.DllCpp.sizeofMemBlock mem size)) ops = some s ∧
    s.pool.head = first bs ∧ Listed (fun o => (s.pool.mem o).forget) bs ∧
    Inside Doubly.DllCpp.sizeofMemBlock s.pool.poolSize bs s.live

/-- a run of `memorypoolSLL.cpp` ends, with everything inside the pool -/
def SllInBounds (mem : ℕ → Singly.MemBlock) (size : ℕ) (ops : List Op) : Prop :=
  ∃ s bs, run (Singly.SllCpp.pool Singly.SllCpp.sizeofMemBlock)
      (fresh (Singly.SllCpp.memPool Singly.SllCpp.sizeofMemBlock mem size)) ops = some s ∧
    s.pool.head = first bs ∧ Listed s.pool.mem bs ∧
    Inside Singly.SllCpp.sizeofMemBlock s.pool.poolSize bs s.live

theorem Inv.inside {P : Policy} {e : ℕ} {t : St (List Block)} (h : Inv P e t) : Inside P.H e t.pool t.live := by
  refine ⟨fun b hb => ?_, fun l hl => ?_⟩
  · have := (h.tiles.mem hb).2
    exact ⟨by omega, fun _ => this⟩
  · obtain ⟨b, hb, hbl, hsz⟩ := h.owns.fits l hl
    have := (h.tiles.mem (mem_used.1 hb).1).2
    omega

/-- a pool that does not hold one header is out of bounds from the start -/
theorem not_inside_of_small {H size : ℕ} (hsz : size < H) {bs : List Block} {live : List (ℕ × ℕ)}
    (hf : some 0 = first bs) : ¬ Inside H size bs live := by
  intro h
  cases bs with
  | nil => simp [first] at hf
  | cons b bs =>
    have := (h.1 b List.mem_cons_self).1
    omega

/-- **When the C++ pools stay in bounds.** For every size_t value given to the constructors, every header and payload
lies inside the pool in every run of frees of held pointers, exactly when the value is at least `sizeof(MemBlock)`. -/
theorem cpp_in_bounds_iff (size : ℕ) (hlt : size < 2 ^ 64) :
    ((∀ mem ops, Op.free none ∉ ops → DllInBounds mem size ops) ↔ Doubly.DllCpp.sizeofMemBlock ≤ size) ∧
    ((∀ mem ops, Op.free none ∉ ops → SllInBounds mem size ops) ↔ Singly.SllCpp.sizeofMemBlock ≤ size) := by
  refine ⟨⟨fun h => ?_, fun hsz mem ops hnull => ?_⟩, ⟨fun h => ?_, fun hsz mem ops hnull => ?_⟩⟩
  · by_contra hsz
    obtain ⟨s, bs, hr, hf, -, hin⟩ := h (fun _ => ⟨0, none, none, false⟩) [] (by simp)
    obtain rfl := Option.some.inj hr
    exact not_inside_of_small (Nat.lt_of_not_le hsz) hf hin
  · have hH : 0 < Doubly.DllCpp.sizeofMemBlock := by decide
    obtain ⟨s, t, hs, -, hagree, hi⟩ := run_refines (Doubly.dllCpp_refines _ size hH hlt) ops
      (fun hm => absurd hm hnull) (inv_whole (sllPolicy _ hH) size hsz)
      (fresh_agrees (Doubly.DllCpp.init_pool _ mem size hsz hlt))
    refine ⟨s, t.pool, hs, hagree.pool.head, hagree.pool.linked.forget, ?_⟩
    rw [hagree.pool.size, hagree.live]
    exact Inv.inside hi
  · by_contra hsz
    obtain ⟨s, bs, hr, hf, -, hin⟩ := h (fun _ => ⟨0, none, false⟩) [] (by simp)
    obtain rfl := Option.some.inj hr
    exact not_inside_of_small (Nat.lt_of_not_le hsz) hf hin
  · have hH : 0 < Singly.SllCpp.sizeofMemBlock := by decide
    obtain ⟨s, t, hs, -, hagree, hi⟩ := run_refines (Singly.sllCpp_refines _ size hH hlt) ops
      (fun hm => absurd hm hnull) (inv_whole (onePassPolicy _ hH) size hsz)
      (fresh_agrees (Singly.SllCpp.init_pool _ mem size hsz hlt))
    refine ⟨s, t.pool, hs, hagree.pool.head, hagree.pool.listed, ?_⟩
    rw [hagree.pool.size, hagree.live]
    exact Inv.inside hi

/-- the pool of `main` -/
theorem cpp_in_bounds_iff_main :
    ((∀ mem ops, Op.free none ∉ ops → DllInBounds mem 1024 ops) ↔ Doubly.DllCpp.sizeofMemBlock ≤ 1024) ∧
    ((∀ mem ops, Op.free none ∉ ops → SllInBounds mem 1024 ops) ↔ Singly.SllCpp.sizeofMemBlock ≤ 1024) :=
  cpp_in_bounds_iff 1024 (by decide)

/-- **A 16-byte pool hands out 100 bytes.** The constructor writes a header of 32 (24) bytes into 16 bytes and wraps
the free size around, so an allocation of 100 bytes succeeds, far outside the pool. -/
theorem cpp_out_of_bounds :
    (run (Doubly.DllCpp.pool Doubly.DllCpp.sizeofMemBlock)
      (fresh (Doubly.DllCpp.memPool Doubly.DllCpp.sizeofMemBlock (fun _ => ⟨0, none, none, false⟩) 16))
      [.alloc 100]).map (fun s => (s.pool.poolSize, s.live)) = some (16, [(32, 100)]) ∧
    (run (Singly.SllCpp.pool Singly.SllCpp.sizeofMemBlock)
      (fresh (Singly.SllCpp.memPool Singly.SllCpp.sizeofMemBlock (fun _ => ⟨0, none, false⟩) 16))
      [.alloc 100]).map (fun s => (s.pool.poolSize, s.live)) = some (16, [(24, 100)]) ∧
    ¬ DllInBounds (fun _ => ⟨0, none, none, false⟩) 16 [.alloc 100] ∧
    ¬ SllInBounds (fun _ => ⟨0, none, false⟩) 16 [.alloc 100] := by
  have hd : (run (Doubly.DllCpp.pool Doubly.DllCpp.sizeofMemBlock)
      (fresh (Doubly.DllCpp.memPool Doubly.DllCpp.sizeofMemBlock (fun _ => ⟨0, none, none, false⟩) 16))
      [.alloc 100]).map (fun s => (s.pool.poolSize, s.live)) = some (16, [(32, 100)]) := by decide
  have hs : (run (Singly.SllCpp.pool Singly.SllCpp.sizeofMemBlock)
      (fresh (Singly.SllCpp.memPool Singly.SllCpp.sizeofMemBlock (fun _ => ⟨0, none, false⟩) 16))
      [.alloc 100]).map (fun s => (s.pool.poolSize, s.live)) = some (16, [(24, 100)]) := by decide
  refine ⟨hd, hs, ?_, ?_⟩
  · rintro ⟨s, bs, hr, -, -, hin⟩
    rw [hr] at hd
    simp only [Option.map_some, Option.some.injEq, Prod.mk.injEq] at hd
    have := hin.2 (32, 100) (by simp [hd.2])
    omega
  · rintro ⟨s, bs, hr, -, -, hin⟩
    rw [hr] at hs
    simp only [Option.map_some, Option.some.injEq, Prod.mk.injEq] at hs
    have := hin.2 (24, 100) (by simp [hs.2])
    omega

end InterviewPrep.MemoryPool.Agreement
