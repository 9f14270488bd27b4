/-
The search in a binary search tree of arista/findPosition.cpp.

The comment at its top wants the place of the number in the order of the tree; the comment at the function wants its level. The
loop counts levels in an `int`, one more than it visits, so that the tree has fewer than 2^31 - 1 of them here.

- `findPosition_iff`: in a search tree the result is the level of the key, and -1 exactly if the key is not there;
- `rank_iff`: it is the place in the order, for every key of the tree, exactly if no node has a left child.
-/
import InterviewPrep.Core.Numeral

namespace InterviewPrep.Arista.FindPosition

open Numeral (signed signed_of_small)

/-! ## Model -/

inductive Node where
  | null
  | node (data : ℤ) (left right : Node)
  deriving DecidableEq

namespace Node

/-- the keys in order, each with its level; the root is at `level` -/
def entries : Node → ℤ → List (ℤ × ℤ)
  | null, _ => []
  | node data left right, level => left.entries (level + 1) ++ (data, level) :: right.entries (level + 1)

def inorder : Node → List ℤ
  | null => []
  | node data left right => left.inorder ++ data :: right.inorder

/-- the number of levels -/
def height : Node → ℕ
  | null => 0
  | node _ left right => max left.height right.height + 1

/-- no node has a left child -/
def Leftless : Node → Prop
  | null => True
  | node _ left right => left = null ∧ right.Leftless

end Node

structure SearchTree where
  root : Node
  ordered : root.inorder.Pairwise (· < ·)

/-- `while (current)`; `none` where `level++` overflows -/
def findLoop (key : ℤ) : Node → ℤ → Option ℤ
  | .null, _ => some (-1)
  | .node data left right, level =>
    if key = data then some level
    else if key < data then (signed (level + 1)).bind fun level => findLoop key left level
    else (signed (level + 1)).bind fun level => findLoop key right level

def findPosition (root : Node) (key : ℤ) : Option ℤ := findLoop key root 1

/-! ## Search trees -/

section Ordered

variable {data key level n : ℤ} {t left right : Node}

theorem map_entries (t : Node) (level : ℤ) : (t.entries level).map Prod.fst = t.inorder := by
  induction t generalizing level with
  | null => rfl
  | node data left right ihl ihr => rw [Node.entries, List.map_append, List.map_cons, ihl, ihr, Node.inorder]

theorem mem_inorder_of_entry (h : (key, n) ∈ t.entries level) : key ∈ t.inorder :=
  map_entries t level ▸ List.mem_map_of_mem h

theorem level_le (h : (key, n) ∈ t.entries level) : level ≤ n := by
  induction t generalizing level with
  | null => cases h
  | node data left right ihl ihr =>
    rcases List.mem_append.1 h with hl | hr
    · exact (Int.le_add_one le_rfl).trans (ihl hl)
    · rcases List.mem_cons.1 hr with heq | hr
      · exact (Prod.mk.inj heq).2.ge
      · exact (Int.le_add_one le_rfl).trans (ihr hr)

/-- a search tree: smaller keys left, greater ones right -/
theorem ordered_node (h : (Node.node data left right).inorder.Pairwise (· < ·)) :
    left.inorder.Pairwise (· < ·) ∧ right.inorder.Pairwise (· < ·) ∧ (∀ x ∈ left.inorder, x < data) ∧
      ∀ x ∈ right.inorder, data < x := by
  rw [Node.inorder, List.pairwise_append, List.pairwise_cons] at h
  exact ⟨h.1, h.2.1.2, fun x hx => h.2.2 x hx data List.mem_cons_self, h.2.1.1⟩

/-- the levels below are counted without overflow -/
structure Fits (t : Node) (level : ℤ) : Prop where
  low : 1 ≤ level
  high : level + t.height < 2 ^ 31

theorem Fits.next (h : Fits (.node data left right) level) : signed (level + 1) = some (level + 1) := by
  obtain ⟨hlow, hhigh⟩ := h
  rw [Node.height] at hhigh
  exact signed_of_small (by omega) (by omega)

theorem Fits.children (h : Fits (.node data left right) level) : Fits left (level + 1) ∧ Fits right (level + 1) := by
  obtain ⟨hlow, hhigh⟩ := h
  rw [Node.height] at hhigh
  exact ⟨⟨by omega, by omega⟩, ⟨by omega, by omega⟩⟩

theorem findLoop_less (hfits : Fits (.node data left right) level) (hlt : key < data) :
    findLoop key (.node data left right) level = findLoop key left (level + 1) := by
  rw [findLoop, if_neg hlt.ne, if_pos hlt, hfits.next, Option.bind_some]

theorem findLoop_greater (hfits : Fits (.node data left right) level) (hlt : data < key) :
    findLoop key (.node data left right) level = findLoop key right (level + 1) := by
  rw [findLoop, if_neg hlt.ne', if_neg hlt.not_gt, hfits.next, Option.bind_some]

theorem findLoop_absent (h : t.inorder.Pairwise (· < ·)) (hfits : Fits t level) (hkey : key ∉ t.inorder) :
    findLoop key t level = some (-1) := by
  induction t generalizing level with
  | null => rfl
  | node data left right ihl ihr =>
    obtain ⟨hl, hr, -, -⟩ := ordered_node h
    rw [Node.inorder, List.mem_append, List.mem_cons, not_or, not_or] at hkey
    rcases lt_or_gt_of_ne hkey.2.1 with hlt | hlt
    · rw [findLoop_less hfits hlt]
      exact ihl hl hfits.children.1 hkey.1
    · rw [findLoop_greater hfits hlt]
      exact ihr hr hfits.children.2 hkey.2.2

theorem findLoop_entry (h : t.inorder.Pairwise (· < ·)) (hfits : Fits t level) (hentry : (key, n) ∈ t.entries level) :
    findLoop key t level = some n := by
  induction t generalizing level with
  | null => cases hentry
  | node data left right ihl ihr =>
    obtain ⟨hl, hr, hless, hgreater⟩ := ordered_node h
    rcases List.mem_append.1 hentry with hleft | hrest
    · rw [findLoop_less hfits (hless key (mem_inorder_of_entry hleft))]
      exact ihl hl hfits.children.1 hleft
    · rcases List.mem_cons.1 hrest with heq | hright
      · obtain ⟨rfl, rfl⟩ := Prod.mk.inj heq
        rw [findLoop, if_pos rfl]
      · rw [findLoop_greater hfits (hgreater key (mem_inorder_of_entry hright))]
        exact ihr hr hfits.children.2 hright

/-- where the loop counts the places, there is nothing to the left -/
theorem findLoop_rank_iff (h : t.inorder.Pairwise (· < ·)) (hfits : Fits t level) :
    (∀ key ∈ t.inorder, findLoop key t level = some (level + t.inorder.idxOf key)) ↔ t.Leftless := by
  induction t generalizing level with
  | null => simp [Node.inorder, Node.Leftless]
  | node data left right ihl ihr =>
    obtain ⟨-, hr, hless, hgreater⟩ := ordered_node h
    -- right of a root without left child, the level and the place go up together
    have hright : left = .null → ∀ key ∈ right.inorder,
        findLoop key (.node data left right) level = findLoop key right (level + 1) ∧
          (Node.node data left right).inorder.idxOf key = right.inorder.idxOf key + 1 := by
      rintro rfl key hkey
      have hlt := hgreater key hkey
      exact ⟨findLoop_greater hfits hlt, List.idxOf_cons_ne _ hlt.ne⟩
    constructor
    · intro hall
      have hroot := hall data (List.mem_append_right _ List.mem_cons_self)
      have hnotin : data ∉ left.inorder := fun hmem => lt_irrefl _ (hless data hmem)
      rw [findLoop, if_pos rfl, Node.inorder, List.idxOf_append_of_notMem hnotin, List.idxOf_cons_self, Option.some.injEq]
        at hroot
      have hleft : left = .null := by
        cases left with
        | null => rfl
        | node d l r =>
          rw [Node.inorder, List.length_append, List.length_cons] at hroot
          omega
      refine ⟨hleft, (ihr hr hfits.children.2).1 fun key hkey => ?_⟩
      obtain ⟨hloop, hplace⟩ := hright hleft key hkey
      rw [← hloop, hall key (List.mem_append_right _ (List.mem_cons_of_mem data hkey)), hplace]
      congr 1
      omega
    · rintro ⟨hleft, hrest⟩ key hkey
      rw [Node.inorder, hleft] at hkey
      rcases List.mem_cons.1 hkey with rfl | hmem
      · rw [findLoop, if_pos rfl, Node.inorder, hleft]
        simp [Node.inorder]
      · obtain ⟨hloop, hplace⟩ := hright hleft key hmem
        rw [hloop, hplace, (ihr hr hfits.children.2).2 hrest key hmem]
        congr 1
        omega

end Ordered

theorem fits_root {t : Node} (hlevels : t.height < 2 ^ 31 - 1) : Fits t 1 := ⟨le_rfl, by omega⟩

/-- **Levels.** In a search tree of fewer than 2^31 - 1 levels `findPosition` returns -1 exactly if the key is not there, and else
its level, from 1 on. -/
theorem findPosition_iff (t : SearchTree) (hlevels : t.root.height < 2 ^ 31 - 1) (key : ℤ) :
    (findPosition t.root key = some (-1) ↔ key ∉ t.root.inorder) ∧
      ∀ n, (key, n) ∈ t.root.entries 1 ↔ findPosition t.root key = some n ∧ 1 ≤ n := by
  have hfits := fits_root hlevels
  have hfound : key ∈ t.root.inorder → ∃ n, (key, n) ∈ t.root.entries 1 := by
    intro hkey
    rw [← map_entries t.root 1] at hkey
    obtain ⟨⟨k, n⟩, hentry, rfl⟩ := List.mem_map.1 hkey
    exact ⟨n, hentry⟩
  refine ⟨⟨fun habsent hkey => ?_, findLoop_absent t.ordered hfits⟩, fun n => ⟨fun hentry => ?_, ?_⟩⟩
  · obtain ⟨n, hentry⟩ := hfound hkey
    have hle := level_le hentry
    rw [findPosition, findLoop_entry t.ordered hfits hentry, Option.some.injEq] at habsent
    omega
  · exact ⟨findLoop_entry t.ordered hfits hentry, level_le hentry⟩
  · rintro ⟨hreturns, hpos⟩
    by_cases hkey : key ∈ t.root.inorder
    · obtain ⟨m, hentry⟩ := hfound hkey
      rw [findPosition, findLoop_entry t.ordered hfits hentry] at hreturns
      exact Option.some.inj hreturns ▸ hentry
    · rw [findPosition, findLoop_absent t.ordered hfits hkey, Option.some.injEq] at hreturns
      omega

def leaf (data : ℤ) : Node := .node data .null .null

/-- the tree of `main` -/
def sample : SearchTree where
  root := .node 5 (.node 3 (.node 2 (.node 1 (leaf 0) .null) .null) (leaf 4)) (.node 7 (leaf 6) (leaf 8))
  ordered := by decide

/-- 0 is on level 5, and 9 is not there -/
theorem findPosition_iff_sample : findPosition sample.root 0 = some 5 ∧ findPosition sample.root 9 = some (-1) :=
  ⟨(((findPosition_iff sample (by decide) 0).2 5).1 (by decide)).1, (findPosition_iff sample (by decide) 9).1.2 (by decide)⟩

/-- **Not the rank.** In a search tree of fewer than 2^31 - 1 levels the result is the 1-based place in the in-order traversal,
for every key of the tree, exactly if no node has a left child. -/
theorem rank_iff (t : SearchTree) (hlevels : t.root.height < 2 ^ 31 - 1) :
    (∀ key ∈ t.root.inorder, findPosition t.root key = some (t.root.inorder.idxOf key + 1 : ℤ)) ↔ t.root.Leftless := by
  rw [← findLoop_rank_iff t.ordered (fits_root hlevels)]
  simp only [findPosition, Int.add_comm 1]

end InterviewPrep.Arista.FindPosition
