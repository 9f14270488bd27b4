/-
Block lists: the abstract memory of an allocator that keeps a header of H bytes in front of every block and never moves
a block. A block is (offset of its header, payload size, free flag); a list of blocks TILES the range [a, e) when the
first header sits at a, every next header sits right after the previous payload, and the last payload ends at e.

Operations (the three things such an allocator does to its list):
- `carve`: a free block becomes an allocated block, possibly followed by a new free block (a split);
- `release`: the block whose payload starts at p becomes free;
- `join`: two neighbouring free blocks become one. `Joins` is one such step anywhere in the list and `Merges` is any
  number of them. `coalesce` joins as long as it can, `coalesceOnce` makes a single pass that moves on after a join.

Results:
- `tiles_append`, `Tiles.mem`, `Tiles.apart`: a tiling splits at every block, every block lies in the range, and blocks
  are pairwise apart;
- `Merges.tiles`, `Merges.used`: merging keeps the tiling and does not touch the allocated blocks;
- `coalesce_coalesced`, `coalesce_released`: after `coalesce` no two neighbours are free, and on a list that had no
  free neighbours a single release is repaired at its two neighbours only;
- `coalesceOnce_eq_iff`: on such a list one pass is enough exactly when the released block has not a free block on
  both sides.
-/
import Mathlib.Tactic
import Mathlib.Data.List.Chain
import Mathlib.Logic.Relation

namespace InterviewPrep.Blocks

/-! ## Blocks and tilings -/

/-- offset of the header, payload bytes after the header, free flag -/
structure Block where
  off : ℕ
  size : ℕ
  free : Bool
deriving DecidableEq, Repr

/-- the blocks of the list cover [a, e) without gap or overlap -/
def Tiles (H : ℕ) : ℕ → List Block → ℕ → Prop
  | a, [], e => a = e
  | a, b :: bs, e => b.off = a ∧ Tiles H (b.off + H + b.size) bs e

/-- the allocated blocks, in list order -/
def used (bs : List Block) : List Block := bs.filter fun b => !b.free

theorem used_append (l1 l2 : List Block) : used (l1 ++ l2) = used l1 ++ used l2 := List.filter_append ..

theorem mem_used {bs : List Block} {b : Block} : b ∈ used bs ↔ b ∈ bs ∧ b.free = false := by
  simp [used, List.mem_filter]

theorem tiles_append (H : ℕ) (l1 l2 : List Block) (a e : ℕ) :
    Tiles H a (l1 ++ l2) e ↔ ∃ m, Tiles H a l1 m ∧ Tiles H m l2 e := by
  induction l1 generalizing a with
  | nil => simp [Tiles]
  | cons b l1 ih =>
    simp only [List.cons_append, Tiles, ih]
    constructor
    · rintro ⟨hb, m, h1, h2⟩; exact ⟨m, ⟨hb, h1⟩, h2⟩
    · rintro ⟨m, ⟨hb, h1⟩, h2⟩; exact ⟨hb, m, h1, h2⟩

theorem Tiles.length_le {H a e : ℕ} {bs : List Block} (h : Tiles H a bs e) : a + bs.length * H ≤ e := by
  induction bs generalizing a with
  | nil => simp only [Tiles] at h; simp [h]
  | cons b bs ih =>
    have := ih h.2
    have hb := h.1
    simp only [List.length_cons, Nat.succ_mul]; omega

theorem Tiles.le {H a e : ℕ} {bs : List Block} (h : Tiles H a bs e) : a ≤ e :=
  le_trans (Nat.le_add_right _ _) h.length_le

/-- every block, header and payload, lies inside the tiled range -/
theorem Tiles.mem {H a e : ℕ} {bs : List Block} (h : Tiles H a bs e) {b : Block} (hb : b ∈ bs) :
    a ≤ b.off ∧ b.off + H + b.size ≤ e := by
  obtain ⟨l1, l2, rfl⟩ := List.append_of_mem hb
  obtain ⟨m, h1, h2⟩ := (tiles_append H l1 _ a e).1 h
  have := h1.le
  have := h2.2.le
  have := h2.1
  omega

/-- earlier blocks end before later blocks start -/
theorem Tiles.apart {H a e : ℕ} {bs : List Block} (h : Tiles H a bs e) :
    bs.Pairwise fun b c => b.off + H + b.size ≤ c.off := by
  induction bs generalizing a with
  | nil => exact List.Pairwise.nil
  | cons b bs ih => exact List.pairwise_cons.2 ⟨fun c hc => (h.2.mem hc).1, ih h.2⟩

theorem Tiles.offs_nodup {H a e : ℕ} (hH : 0 < H) {bs : List Block} (h : Tiles H a bs e) :
    (bs.map Block.off).Nodup := by
  rw [List.Nodup, List.pairwise_map]
  refine h.apart.imp ?_
  intro b c hbc hoff
  omega

theorem Tiles.off_inj {H a e : ℕ} (hH : 0 < H) {bs : List Block} (h : Tiles H a bs e) {b c : Block} (hb : b ∈ bs)
    (hc : c ∈ bs) (hoff : b.off = c.off) : b = c :=
  List.inj_on_of_nodup_map (h.offs_nodup hH) hb hc hoff

/-- the blocks before and after a block have other offsets -/
theorem Tiles.off_ne {H a e : ℕ} (hH : 0 < H) {as cs : List Block} {b : Block} (h : Tiles H a (as ++ b :: cs) e) :
    (∀ x ∈ as, x.off ≠ b.off) ∧ ∀ x ∈ cs, x.off ≠ b.off := by
  have hnd := h.offs_nodup hH
  rw [List.map_append, List.map_cons, List.nodup_append] at hnd
  obtain ⟨_, hcs, hdis⟩ := hnd
  refine ⟨fun x hx => hdis _ (List.mem_map_of_mem hx) _ List.mem_cons_self, fun x hx hoff => ?_⟩
  exact (List.nodup_cons.1 hcs).1 (hoff ▸ List.mem_map_of_mem hx)

/-- two blocks of a tiling are the same block or do not overlap -/
theorem Tiles.disjoint {H a e : ℕ} {bs : List Block} (h : Tiles H a bs e) {b c : Block} (hb : b ∈ bs) (hc : c ∈ bs)
    (hne : b ≠ c) : b.off + H + b.size ≤ c.off ∨ c.off + H + c.size ≤ b.off := by
  obtain ⟨l1, l2, rfl⟩ := List.append_of_mem hb
  have hap := h.apart
  rw [List.pairwise_append, List.pairwise_cons] at hap
  obtain ⟨_, ⟨hafter, _⟩, hbefore⟩ := hap
  rcases List.mem_append.1 hc with hc | hc
  · exact Or.inr (hbefore c hc b List.mem_cons_self)
  · rcases List.mem_cons.1 hc with rfl | hc
    · exact absurd rfl hne
    · exact Or.inl (hafter c hc)

/-! ## Joining neighbours -/

/-- two neighbouring free blocks as one: the second header becomes payload -/
def join (H : ℕ) (a b : Block) : Block := ⟨a.off, a.size + (H + b.size), a.free⟩

/-- one join of two free neighbours, anywhere in the list -/
inductive Joins (H : ℕ) : List Block → List Block → Prop
  | mk (as bs : List Block) (a b : Block) (ha : a.free = true) (hb : b.free = true) :
      Joins H (as ++ a :: b :: bs) (as ++ join H a b :: bs)

/-- any number of joins -/
def Merges (H : ℕ) : List Block → List Block → Prop := Relation.ReflTransGen (Joins H)

theorem Joins.cons {H : ℕ} {l l' : List Block} (h : Joins H l l') (x : Block) : Joins H (x :: l) (x :: l') := by
  obtain ⟨as, bs, a, b, ha, hb⟩ := h
  exact Joins.mk (x :: as) bs a b ha hb

theorem Merges.cons {H : ℕ} {l l' : List Block} (h : Merges H l l') (x : Block) : Merges H (x :: l) (x :: l') :=
  Relation.ReflTransGen.lift (List.cons x) (fun _ _ hj => Joins.cons hj x) _ _ h

theorem Joins.tiles {H : ℕ} {l l' : List Block} (h : Joins H l l') {a e : ℕ} (ht : Tiles H a l e) : Tiles H a l' e := by
  obtain ⟨as, bs, x, y, hx, hy⟩ := h
  rw [tiles_append] at ht ⊢
  obtain ⟨m, h1, hxo, hyo, h2⟩ := ht
  refine ⟨m, h1, hxo, ?_⟩
  have : x.off + H + (x.size + (H + y.size)) = y.off + H + y.size := by omega
  simpa [join, this] using h2

theorem Joins.used {H : ℕ} {l l' : List Block} (h : Joins H l l') : used l' = used l := by
  obtain ⟨as, bs, x, y, hx, hy⟩ := h
  simp [Blocks.used, join, hx, hy]

/-- **Merging keeps the tiling.** -/
theorem Merges.tiles {H : ℕ} {l l' : List Block} (h : Merges H l l') {a e : ℕ} (ht : Tiles H a l e) :
    Tiles H a l' e := by
  induction h with
  | refl => exact ht
  | tail _ hj ih => exact hj.tiles ih

/-- **Merging does not touch allocated blocks.** -/
theorem Merges.used {H : ℕ} {l l' : List Block} (h : Merges H l l') : used l' = used l := by
  induction h with
  | refl => rfl
  | tail _ hj ih => rw [hj.used, ih]

/-! ## Full coalescing -/

/-- no two neighbouring blocks are both free -/
def Coalesced (bs : List Block) : Prop := bs.IsChain fun a b => ¬ (a.free = true ∧ b.free = true)

/-- put a block in front of a list, joining it with the first block when both are free -/
def absorb (H : ℕ) (a : Block) : List Block → List Block
  | [] => [a]
  | b :: bs => if a.free && b.free then join H a b :: bs else a :: b :: bs

/-- join neighbours until no two are free -/
def coalesce (H : ℕ) (bs : List Block) : List Block := bs.foldr (absorb H) []

theorem coalesce_cons (H : ℕ) (a : Block) (bs : List Block) : coalesce H (a :: bs) = absorb H a (coalesce H bs) := rfl

theorem coalesce_append (H : ℕ) (as l : List Block) :
    coalesce H (as ++ l) = as.foldr (absorb H) (coalesce H l) := by
  simp [coalesce]

theorem absorb_of_not_free (H : ℕ) {a : Block} (ha : a.free = false) (l : List Block) : absorb H a l = a :: l := by
  cases l <;> simp [absorb, ha]

/-- absorbing a joined pair is absorbing the two one after the other -/
theorem absorb_join (H : ℕ) {a b : Block} (ha : a.free = true) (hb : b.free = true) (l : List Block) :
    absorb H (join H a b) l = absorb H a (absorb H b l) := by
  cases l with
  | nil => simp [absorb, ha, hb]
  | cons c l =>
    by_cases hc : c.free = true
    · simp [absorb, join, ha, hb, hc]; omega
    · simp [absorb, join, ha, hb, hc]

theorem absorb_head (H : ℕ) (a : Block) (l : List Block) :
    ∃ b l', absorb H a l = b :: l' ∧ b.free = a.free ∧ b.off = a.off := by
  cases l with
  | nil => exact ⟨a, [], rfl, rfl, rfl⟩
  | cons c l =>
    by_cases hc : a.free = true ∧ c.free = true
    · exact ⟨join H a c, l, by simp [absorb, hc.1, hc.2], rfl, rfl⟩
    · exact ⟨a, c :: l, by simp only [absorb]; rw [if_neg]; simpa using hc, rfl, rfl⟩

theorem absorb_coalesced (H : ℕ) (a : Block) {l : List Block} (h : Coalesced l) : Coalesced (absorb H a l) := by
  cases l with
  | nil => exact List.isChain_singleton a
  | cons b l =>
    simp only [absorb]
    split_ifs with hab
    · simp only [Bool.and_eq_true] at hab
      exact List.IsChain.imp_head (fun hz => by simpa [join, hab.1, hab.2] using hz) h
    · exact List.IsChain.cons_cons (by simpa using hab) h

/-- **After coalescing no two neighbours are free.** -/
theorem coalesce_coalesced (H : ℕ) (bs : List Block) : Coalesced (coalesce H bs) := by
  induction bs with
  | nil => exact List.isChain_nil
  | cons a bs ih => rw [coalesce_cons]; exact absorb_coalesced H a ih

theorem absorb_merges (H : ℕ) (a : Block) (l : List Block) : Merges H (a :: l) (absorb H a l) := by
  cases l with
  | nil => exact Relation.ReflTransGen.refl
  | cons b l =>
    simp only [absorb]
    split_ifs with hab
    · simp only [Bool.and_eq_true] at hab
      exact Relation.ReflTransGen.single (Joins.mk [] l a b hab.1 hab.2)
    · exact Relation.ReflTransGen.refl

theorem coalesce_merges (H : ℕ) (bs : List Block) : Merges H bs (coalesce H bs) := by
  induction bs with
  | nil => exact Relation.ReflTransGen.refl
  | cons a bs ih => exact (ih.cons a).trans (absorb_merges H a _)

theorem absorb_of_coalesced (H : ℕ) {a : Block} {l : List Block} (h : Coalesced (a :: l)) : absorb H a l = a :: l := by
  cases l with
  | nil => rfl
  | cons b l =>
    have hab := (List.isChain_cons_cons.1 h).1
    simp only [absorb]
    rw [if_neg]
    simpa using hab

theorem coalesce_of_coalesced (H : ℕ) {bs : List Block} (h : Coalesced bs) : coalesce H bs = bs := by
  induction bs with
  | nil => rfl
  | cons a bs ih => rw [coalesce_cons, ih h.tail, absorb_of_coalesced H h]

/-- the blocks in front of the last one do not take part when that one absorbs what follows -/
theorem foldr_absorb_prefix (H : ℕ) {as : List Block} {x y : Block} {l : List Block} (h : Coalesced (as ++ [x]))
    (hy : y.free = x.free) : as.foldr (absorb H) (y :: l) = as ++ y :: l := by
  induction as with
  | nil => rfl
  | cons a as ih =>
    rw [List.foldr_cons, ih h.tail]
    cases as with
    | nil =>
      have hax := (List.isChain_cons_cons.1 h).1
      simp only [List.nil_append, absorb, hy]
      rw [if_neg (by simpa using hax)]
      rfl
    | cons c as =>
      have hac := (List.isChain_cons_cons.1 h).1
      simp only [List.cons_append, absorb]
      rw [if_neg (by simpa using hac)]

/-- **Coalescing repairs a release locally.** When the blocks up to `x` and the blocks `cs` have no free neighbours,
coalescing around a block `b` between them only looks at `x` and at the first block of `cs`. -/
theorem coalesce_released (H : ℕ) {as cs : List Block} {x : Block} (b : Block) (has : Coalesced (as ++ [x]))
    (hcs : Coalesced cs) : coalesce H (as ++ x :: b :: cs) = as ++ absorb H x (absorb H b cs) := by
  have hfold : coalesce H (as ++ x :: b :: cs) = as.foldr (absorb H) (absorb H x (absorb H b (coalesce H cs))) := by
    rw [coalesce_append, coalesce_cons, coalesce_cons]
  obtain ⟨y, l, he, hf, -⟩ := absorb_head H x (absorb H b cs)
  rw [hfold, coalesce_of_coalesced H hcs, he, foldr_absorb_prefix H has hf]

/-- joining two free neighbours beforehand makes no difference to coalescing -/
theorem coalesce_join (H : ℕ) {b c : Block} {bs : List Block} (hb : b.free = true) (hc : c.free = true) :
    coalesce H (b :: c :: bs) = coalesce H (join H b c :: bs) := by
  rw [coalesce_cons, coalesce_cons, coalesce_cons, absorb_join H hb hc]

/-! ## A single coalescing pass -/

/-- one pass from the front that steps over a joined block instead of looking at its new neighbour -/
def coalesceOnce (H : ℕ) : List Block → List Block
  | a :: b :: bs => if a.free && b.free then join H a b :: coalesceOnce H bs else a :: coalesceOnce H (b :: bs)
  | l => l

theorem coalesceOnce_merges (H : ℕ) (bs : List Block) : Merges H bs (coalesceOnce H bs) := by
  induction bs using coalesceOnce.induct with
  | case1 a b bs hab ih =>
    simp only [coalesceOnce, hab, if_true]
    simp only [Bool.and_eq_true] at hab
    exact (Relation.ReflTransGen.single (Joins.mk [] bs a b hab.1 hab.2)).trans (ih.cons _)
  | case2 a b bs hab ih =>
    simp only [coalesceOnce, hab]
    exact ih.cons a
  | case3 l hl =>
    rw [coalesceOnce]
    · exact Relation.ReflTransGen.refl
    · exact hl

theorem coalesceOnce_prefix (H : ℕ) {as : List Block} {x : Block} (l : List Block) (h : Coalesced (as ++ [x])) :
    coalesceOnce H (as ++ x :: l) = as ++ coalesceOnce H (x :: l) := by
  induction as with
  | nil => rfl
  | cons a as ih =>
    cases as with
    | nil =>
      have hax := (List.isChain_cons_cons.1 h).1
      simp only [List.cons_append, List.nil_append, coalesceOnce]
      rw [if_neg (by simpa using hax)]
    | cons c as =>
      have hac := (List.isChain_cons_cons.1 h).1
      have ih := ih h.tail
      simp only [List.cons_append] at ih ⊢
      rw [coalesceOnce, if_neg (by simpa using hac), ih]

theorem coalesceOnce_of_coalesced (H : ℕ) {bs : List Block} (h : Coalesced bs) : coalesceOnce H bs = bs := by
  cases bs using List.reverseRecOn with
  | nil => rfl
  | append_singleton as x => simpa [coalesceOnce] using coalesceOnce_prefix H [] h

theorem coalesceOnce_cons (H : ℕ) (b : Block) {cs : List Block} (h : Coalesced cs) :
    coalesceOnce H (b :: cs) = absorb H b cs := by
  cases cs with
  | nil => rfl
  | cons c cs =>
    have htail : coalesceOnce H cs = cs := coalesceOnce_of_coalesced H h.tail
    simp only [coalesceOnce, absorb, coalesceOnce_of_coalesced H h, htail]

/-- **When a single pass is enough.** On a list without free neighbours, except around the free block `b`, the single
pass gives the fully coalesced list exactly when `b` has not a free block on both sides. -/
theorem coalesceOnce_eq_iff (H : ℕ) {as cs : List Block} {b : Block} (hb : b.free = true) (has : Coalesced as)
    (hcs : Coalesced cs) :
    coalesceOnce H (as ++ b :: cs) = coalesce H (as ++ b :: cs) ↔
      ¬ ((∃ x ∈ as.getLast?, x.free = true) ∧ ∃ y ∈ cs.head?, y.free = true) := by
  cases as using List.reverseRecOn with
  | nil =>
    simp only [List.nil_append, coalesceOnce_cons H b hcs, coalesce_cons, coalesce_of_coalesced H hcs]
    simp
  | append_singleton as x =>
    have hassoc : as ++ [x] ++ b :: cs = as ++ x :: b :: cs := by simp
    rw [hassoc, coalesce_released H b has hcs, coalesceOnce_prefix H _ has, List.append_cancel_left_eq, coalesceOnce]
    by_cases hx : x.free = true
    · rw [← absorb_join H hx hb, coalesceOnce_of_coalesced H hcs]
      cases cs with
      | nil => simp [absorb, hx, hb]
      | cons c cs =>
        by_cases hc : c.free = true
        · have hne : join H x b :: c :: cs ≠ absorb H (join H x b) (c :: cs) := by
            intro he
            have := congrArg List.length he
            simp [absorb, join, hx, hc] at this
          simp [hx, hb, hc, hne]
        · simp [absorb, join, hx, hb, hc]
    · have hx' : x.free = false := by simpa using hx
      simp [hx', absorb_of_not_free, coalesceOnce_cons H b hcs]

end InterviewPrep.Blocks
