/-
Tries in an arena.

A node has a payload and a pointer to a child, or none, for each letter; pointers are positions in the arena, which only grows.
`walk` follows a word from a node, `extend` follows it and makes the nodes that are missing, `write` gives a node a payload.
`content` is the payload at the end of a word, or the payload of a new node if the word leads nowhere.
- `Sound`: pointers stay in the arena, and different words lead to different nodes;
- `extend_spec`: `extend` keeps it and changes no content;
- `content_write`: `write` changes the content of one word;
- `Holds`: the words that lead somewhere are the beginnings of a set of words, and `extend` adds one to it (`Holds.extend`);
- `childAt_extend`: what an extension does not touch.
-/
import Mathlib.Tactic

namespace InterviewPrep.Trie

variable {κ β : Type}

structure Node (κ β : Type) where
  payload : β
  child : κ → Option ℕ

abbrev Arena (κ β : Type) := List (Node κ β)

def childAt (a : Arena κ β) (p : ℕ) (k : κ) : Option ℕ := a[p]?.bind fun n => n.child k

def walk (a : Arena κ β) : ℕ → List κ → Option ℕ
  | p, [] => some p
  | p, k :: ks => (childAt a p k).bind fun q => walk a q ks

def fresh (b : β) : Node κ β := ⟨b, fun _ => none⟩

/-- a new node at the end becomes a child -/
def grown [DecidableEq κ] (b : β) (a : Arena κ β) (p : ℕ) (k : κ) : Arena κ β :=
  a.modify p (fun n => { n with child := Function.update n.child k (some a.length) }) ++ [fresh b]

/-- the child for `k`, which is made if there is none -/
def link [DecidableEq κ] (b : β) (a : Arena κ β) (p : ℕ) (k : κ) : Arena κ β × ℕ :=
  match childAt a p k with
  | some q => (a, q)
  | none => (grown b a p k, a.length)

def extend [DecidableEq κ] (b : β) : Arena κ β → ℕ → List κ → Arena κ β × ℕ
  | a, p, [] => (a, p)
  | a, p, k :: ks =>
    let (a, q) := link b a p k
    extend b a q ks

def write (a : Arena κ β) (p : ℕ) (b : β) : Arena κ β := a.modify p fun n => { n with payload := b }

def payloadAt (a : Arena κ β) (p : ℕ) : Option β := a[p]?.map Node.payload

def content (b : β) (a : Arena κ β) (root : ℕ) (w : List κ) : β := ((walk a root w).bind (payloadAt a)).getD b

/-- pointers stay in the arena, and no node is reached by two words -/
structure Sound (a : Arena κ β) (root : ℕ) : Prop where
  root_lt : root < a.length
  child_lt : ∀ p k q, childAt a p k = some q → q < a.length
  unique : ∀ u v p, walk a root u = some p → walk a root v = some p → u = v

variable {a : Arena κ β} {b : β} {root p q : ℕ} {u w ks : List κ} {k : κ}

theorem walk_append : walk a p (u ++ w) = (walk a p u).bind fun q => walk a q w := by
  induction u generalizing p with
  | nil => rfl
  | cons k u ih =>
    rw [List.cons_append, walk, walk, Option.bind_assoc]
    congr 1
    funext q
    exact ih

theorem walk_concat : walk a p (u ++ [k]) = (walk a p u).bind fun q => childAt a q k := by
  rw [walk_append]
  congr 1
  funext q
  exact Option.bind_fun_some _

theorem isSome_walk_start (hw : u <+: w) (h : (walk a p w).isSome) : (walk a p u).isSome := by
  obtain ⟨v, rfl⟩ := hw
  rw [walk_append] at h
  exact Option.isSome_of_isSome_bind h

theorem walk_lt (h : Sound a root) (hw : walk a root w = some p) : p < a.length := by
  induction w using List.reverseRecOn generalizing p with
  | nil => exact Option.some.inj hw ▸ h.root_lt
  | append_singleton w k ih =>
    rw [walk_concat] at hw
    obtain ⟨q, -, hq⟩ := Option.bind_eq_some_iff.1 hw
    exact h.child_lt q k p hq

/-! ## A new node -/

section Grown

variable [DecidableEq κ]

theorem length_grown : (grown b a p k).length = a.length + 1 := by
  rw [grown, List.length_append, List.length_modify, List.length_singleton]

theorem getElem?_grown (r : ℕ) :
    (grown b a p k)[r]? =
      if r < a.length then
        (if p = r then a[r]?.map fun n => { n with child := Function.update n.child k (some a.length) } else a[r]?)
      else if r = a.length then some (fresh b) else none := by
  rw [grown, List.getElem?_append, List.length_modify, List.getElem?_modify]
  by_cases hr : r < a.length
  · rw [if_pos hr, if_pos hr]
    split_ifs
    · rfl
    · exact Option.map_id'
  · rw [if_neg hr, if_neg hr, List.getElem?_singleton]
    congr 1
    exact propext ⟨fun h => by omega, fun h => by omega⟩

theorem childAt_grown (hp : p < a.length) (r : ℕ) (j : κ) :
    childAt (grown b a p k) r j = if r = p ∧ j = k then some a.length else childAt a r j := by
  unfold childAt
  rw [getElem?_grown]
  by_cases hr : r < a.length
  · rw [if_pos hr]
    by_cases hrp : p = r
    · subst hrp
      rw [if_pos rfl, List.getElem?_eq_getElem hp, Option.map_some, Option.bind_some, Option.bind_some]
      dsimp only
      by_cases hj : j = k
      · rw [hj, Function.update_self, if_pos ⟨rfl, rfl⟩]
      · rw [Function.update_of_ne hj, if_neg fun h => hj h.2]
    · rw [if_neg hrp, if_neg fun h => hrp h.1.symm]
  · have hout : a[r]? = none := List.getElem?_eq_none (Nat.le_of_not_lt hr)
    have hne : ¬(r = p ∧ j = k) := fun h => hr (h.1 ▸ hp)
    rw [if_neg hr, if_neg hne, hout]
    split_ifs <;> rfl

theorem payloadAt_grown (r : ℕ) :
    payloadAt (grown b a p k) r = if r = a.length then some b else payloadAt a r := by
  unfold payloadAt
  rw [getElem?_grown]
  by_cases hr : r < a.length
  · rw [if_pos hr, if_neg hr.ne]
    split_ifs
    · rw [Option.map_map]
      rfl
    · rfl
  · rw [if_neg hr, List.getElem?_eq_none (Nat.le_of_not_lt hr)]
    split_ifs <;> rfl

/-- only the word of the new node leads elsewhere -/
theorem walk_grown (h : Sound a root) (hu : walk a root u = some p) (hnone : childAt a p k = none) (w : List κ) :
    walk (grown b a p k) root w = if w = u ++ [k] then some a.length else walk a root w := by
  have hp := walk_lt h hu
  induction w using List.reverseRecOn with
  | nil => rw [if_neg (by simp), walk, walk]
  | append_singleton w j ih =>
    have hconcat : w ++ [j] = u ++ [k] ↔ w = u ∧ j = k := by simp
    rw [walk_concat, walk_concat, ih]
    by_cases hw : w = u ++ [k]
    · -- the new node has no children
      have hlonger : ¬(w = u ∧ j = k) := fun h => by
        have := congrArg List.length (hw.symm.trans h.1)
        simp at this
      have hout : childAt a a.length j = none := by
        rw [childAt, List.getElem?_eq_none le_rfl, Option.bind_none]
      rw [if_pos hw, if_neg (mt hconcat.1 hlonger), Option.bind_some, childAt_grown hp, if_neg fun h => hp.ne h.1.symm, hout,
        hw, walk_concat, hu, Option.bind_some, hnone, Option.bind_none]
    · rw [if_neg hw]
      cases hr : walk a root w with
      | none =>
        have hne : ¬(w = u ∧ j = k) := fun h => by
          rw [h.1, hu] at hr
          cases hr
        rw [if_neg (mt hconcat.1 hne), Option.bind_none, Option.bind_none]
      | some r =>
        have hiff : r = p ∧ j = k ↔ w ++ [j] = u ++ [k] := by
          rw [hconcat]
          refine and_congr_left fun _ => ⟨fun hrp => h.unique w u p (hrp ▸ hr) hu, fun hwu => ?_⟩
          rw [hwu, hu] at hr
          exact (Option.some.inj hr).symm
        rw [Option.bind_some, Option.bind_some, childAt_grown hp]
        exact if_congr hiff rfl rfl

theorem sound_grown (h : Sound a root) (hu : walk a root u = some p) (hnone : childAt a p k = none) :
    Sound (grown b a p k) root := by
  have hp := walk_lt h hu
  have hroot := h.root_lt
  refine ⟨by rw [length_grown]; omega, fun r j q hq => ?_, fun v w q hv hw => ?_⟩
  · rw [childAt_grown hp] at hq
    rw [length_grown]
    split_ifs at hq
    · obtain rfl := Option.some.inj hq
      omega
    · have := h.child_lt r j q hq
      omega
  · rw [walk_grown h hu hnone] at hv hw
    split_ifs at hv hw with hv' hw' hw'
    · rw [hv', hw']
    · have := walk_lt h hw
      have := Option.some.inj hv
      omega
    · have := walk_lt h hv
      have := Option.some.inj hw
      omega
    · exact h.unique v w q hv hw

theorem content_grown (h : Sound a root) (hu : walk a root u = some p) (hnone : childAt a p k = none) (w : List κ) :
    content b (grown b a p k) root w = content b a root w := by
  unfold content
  rw [walk_grown h hu hnone]
  by_cases hw : w = u ++ [k]
  · rw [if_pos hw, hw, walk_concat, hu, Option.bind_some, Option.bind_some, hnone, payloadAt_grown, if_pos rfl]
    rfl
  · rw [if_neg hw]
    cases hr : walk a root w with
    | none => rfl
    | some r => rw [Option.bind_some, Option.bind_some, payloadAt_grown, if_neg (walk_lt h hr).ne]

/-! ## Words -/

theorem link_spec (h : Sound a root) (hu : walk a root u = some p) (k : κ) :
    Sound (link b a p k).1 root ∧ walk (link b a p k).1 root (u ++ [k]) = some (link b a p k).2 ∧
      ∀ w, content b (link b a p k).1 root w = content b a root w := by
  unfold link
  cases hchild : childAt a p k with
  | some q => exact ⟨h, by rw [walk_concat, hu, Option.bind_some, hchild], fun w => rfl⟩
  | none =>
    exact ⟨sound_grown h hu hchild, by rw [walk_grown h hu hchild, if_pos rfl], content_grown h hu hchild⟩

/-- the missing nodes are made, and no content changes -/
theorem extend_spec (h : Sound a root) (hu : walk a root u = some p) (ks : List κ) :
    Sound (extend b a p ks).1 root ∧ walk (extend b a p ks).1 root (u ++ ks) = some (extend b a p ks).2 ∧
      ∀ w, content b (extend b a p ks).1 root w = content b a root w := by
  induction ks generalizing a p u with
  | nil => exact ⟨h, by rw [List.append_nil]; exact hu, fun w => rfl⟩
  | cons k ks ih =>
    obtain ⟨hlink, hnode, hcontent⟩ := link_spec (b := b) h hu k
    obtain ⟨hsound, hwalk, hrest⟩ := ih hlink hnode
    rw [extend]
    dsimp only
    refine ⟨hsound, ?_, fun w => (hrest w).trans (hcontent w)⟩
    rwa [List.append_assoc, List.singleton_append] at hwalk

/-- `link` makes one word lead to its node, and leaves all others -/
theorem walk_link (h : Sound a root) (hu : walk a root u = some p) (k : κ) (w : List κ) :
    walk (link b a p k).1 root w = if w = u ++ [k] then some (link b a p k).2 else walk a root w := by
  unfold link
  cases hchild : childAt a p k with
  | none => exact walk_grown h hu hchild w
  | some q =>
    split_ifs with hw
    · rw [hw, walk_concat, hu, Option.bind_some, hchild]
    · rfl

/-- a word that is not longer than the one `link` starts from leads where it led -/
theorem walk_link_short (h : Sound a root) (hu : walk a root u = some p) (hle : w.length ≤ u.length) (k : κ) :
    walk (link b a p k).1 root w = walk a root w := by
  have hne : w ≠ u ++ [k] := by
    intro heq
    rw [heq, List.length_append, List.length_singleton] at hle
    omega
  rw [walk_link h hu, if_neg hne]

/-! ## The words of a trie -/

/-- after `extend`, what led somewhere before and the beginnings of the new word lead somewhere -/
theorem isSome_walk_extend (h : Sound a root) (hu : walk a root u = some p) (ks w : List κ) :
    (walk (extend b a p ks).1 root w).isSome ↔ (walk a root w).isSome ∨ w <+: u ++ ks := by
  induction ks generalizing a p u with
  | nil =>
    rw [List.append_nil]
    have hall : (walk a root u).isSome := by
      rw [hu]
      rfl
    exact ⟨Or.inl, fun hor => hor.elim id fun hw => isSome_walk_start hw hall⟩
  | cons k ks ih =>
    obtain ⟨hlink, hnode, -⟩ := link_spec (b := b) h hu k
    have hrest := ih hlink hnode
    rw [List.append_assoc, List.singleton_append] at hrest
    rw [extend]
    dsimp only
    rw [hrest, walk_link h hu]
    split_ifs with hw
    · refine ⟨fun _ => Or.inr ?_, fun _ => Or.inl rfl⟩
      rw [hw]
      exact ⟨ks, by rw [List.append_assoc, List.singleton_append]⟩
    · exact Iff.rfl

/-- `link` changes no child of a node that a shorter word leads to -/
theorem childAt_link (h : Sound a root) (hu : walk a root u = some p) (hw : walk a root w = some q)
    (hlt : w.length < u.length) (j k : κ) : childAt (link b a p j).1 q k = childAt a q k := by
  unfold link
  cases hchild : childAt a p j with
  | some r => rfl
  | none =>
    have hqp : q ≠ p := by
      intro heq
      rw [h.unique w u p (heq ▸ hw) hu] at hlt
      omega
    dsimp only
    rw [childAt_grown (walk_lt h hu), if_neg fun heq => hqp heq.1]

/-- **Frame.** `extend` from the end of a word changes no child of a node that a shorter word leads to. -/
theorem childAt_extend (h : Sound a root) (hu : walk a root u = some p) (hw : walk a root w = some q)
    (hlt : w.length < u.length) (ks : List κ) (k : κ) : childAt (extend b a p ks).1 q k = childAt a q k := by
  induction ks generalizing a p u with
  | nil => rfl
  | cons j ks ih =>
    obtain ⟨hlink, hnode, -⟩ := link_spec (b := b) h hu j
    have hw' : walk (link b a p j).1 root w = some q := by rw [walk_link_short h hu hlt.le, hw]
    rw [extend]
    dsimp only
    rw [ih hlink hnode hw' (by rw [List.length_append]; omega), childAt_link h hu hw hlt]

/-- the children of a node at the depth where `extend` starts are settled by its first letter -/
theorem childAt_extend_cons (h : Sound a root) (hu : walk a root u = some p) (hw : walk a root w = some q)
    (hle : w.length ≤ u.length) (j : κ) (ks : List κ) (k : κ) :
    childAt (extend b a p (j :: ks)).1 q k = childAt (link b a p j).1 q k := by
  obtain ⟨hlink, hnode, -⟩ := link_spec (b := b) h hu j
  have hw' : walk (link b a p j).1 root w = some q := by rw [walk_link_short h hu hle, hw]
  exact childAt_extend hlink hnode hw' (by rw [List.length_append, List.length_singleton]; omega) ks k

/-- the words that lead somewhere are the beginnings of the words of `W` -/
structure Holds (a : Arena κ β) (root : ℕ) (W : Set (List κ)) : Prop where
  sound : Sound a root
  walk_iff : ∀ w, (walk a root w).isSome ↔ w = [] ∨ ∃ x ∈ W, w <+: x

theorem Holds.extend {W : Set (List κ)} (h : Holds a root W) (w : List κ) :
    Holds (extend b a root w).1 root (insert w W) := by
  have hroot : walk a root [] = some root := rfl
  refine ⟨(extend_spec h.sound hroot w).1, fun v => ?_⟩
  rw [isSome_walk_extend h.sound hroot, h.walk_iff, List.nil_append]
  simp only [Set.mem_insert_iff, exists_eq_or_imp]
  exact or_assoc.trans (or_congr_right or_comm)

end Grown

/-! ## A payload -/

theorem childAt_write (r : ℕ) (j : κ) : childAt (write a p b) r j = childAt a r j := by
  unfold childAt write
  rw [List.getElem?_modify]
  cases a[r]? with
  | none => rfl
  | some n =>
    dsimp only [Option.map_eq_map, Option.map_some, Option.bind_some]
    split_ifs <;> rfl

theorem walk_write (r : ℕ) (w : List κ) : walk (write a p b) r w = walk a r w := by
  induction w generalizing r with
  | nil => rfl
  | cons k w ih =>
    rw [walk, walk, childAt_write]
    congr 1
    funext q
    exact ih q

theorem payloadAt_write (hp : p < a.length) (r : ℕ) : payloadAt (write a p b) r = if r = p then some b else payloadAt a r := by
  unfold payloadAt write
  rw [List.getElem?_modify]
  by_cases hr : r = p
  · rw [if_pos hr, hr, List.getElem?_eq_getElem hp]
    simp
  · rw [if_neg hr]
    cases a[r]? <;> simp [Ne.symm hr]

theorem sound_write (h : Sound a root) : Sound (write a p b) root := by
  have hlength : (write a p b).length = a.length := List.length_modify ..
  refine ⟨hlength ▸ h.root_lt, fun r j q hq => ?_, fun v w q hv hw => ?_⟩
  · rw [childAt_write] at hq
    exact hlength ▸ h.child_lt r j q hq
  · rw [walk_write] at hv hw
    exact h.unique v w q hv hw

/-- one word changes its content -/
theorem content_write {b' : β} [DecidableEq κ] (h : Sound a root) (hu : walk a root u = some p) (w : List κ) :
    content b (write a p b') root w = if w = u then b' else content b a root w := by
  unfold content
  rw [walk_write]
  by_cases hw : w = u
  · rw [if_pos hw, hw, hu, Option.bind_some, payloadAt_write (walk_lt h hu), if_pos rfl, Option.getD_some]
  · rw [if_neg hw]
    cases hr : walk a root w with
    | none => rfl
    | some r =>
      have hne : r ≠ p := fun heq => hw (h.unique w u p (heq ▸ hr) hu)
      rw [Option.bind_some, Option.bind_some, payloadAt_write (walk_lt h hu), if_neg hne]

/-! ## One node -/

theorem childAt_fresh (p : ℕ) (k : κ) : childAt [fresh b] p k = none := by
  cases p <;> rfl

theorem sound_fresh : Sound ([fresh b] : Arena κ β) 0 := by
  refine ⟨Nat.one_pos, fun p k q hq => ?_, fun u v p hu hv => ?_⟩
  · rw [childAt_fresh] at hq
    cases hq
  · have hnil : ∀ w, walk ([fresh b] : Arena κ β) 0 w = some p → w = [] := by
      intro w hw
      cases w with
      | nil => rfl
      | cons k w =>
        rw [walk, childAt_fresh] at hw
        cases hw
    rw [hnil u hu, hnil v hv]

theorem content_fresh (w : List κ) : content b ([fresh b] : Arena κ β) 0 w = b := by
  cases w with
  | nil => rfl
  | cons k w =>
    rw [content, walk, childAt_fresh]
    rfl

theorem holds_fresh : Holds ([fresh b] : Arena κ β) 0 ∅ := by
  refine ⟨sound_fresh, fun w => ?_⟩
  cases w with
  | nil => simp [walk]
  | cons k w => simp [walk, childAt_fresh]

end InterviewPrep.Trie
