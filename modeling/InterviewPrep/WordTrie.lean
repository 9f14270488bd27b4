/-
The trie of trie/trie.cpp.

A node has 26 children; the nodes are in an arena and are never freed. `insert` and `search` go down the trie along the
characters of a word; `children[c - 'a']` outside the array is a fault (`none`). `search` looks at a character only if the ones
before it have led somewhere.

- `search_iff`: insertions go right exactly if their words consist of the letters from a to z; a search for a word of such letters
  then answers whether it has been inserted; one for another word is a fault exactly if the letters before its first other
  character begin an inserted word, or if there are none, and else answers no.
-/
import InterviewPrep.Core.Numeral
import InterviewPrep.Core.Trie

namespace InterviewPrep.WordTrie

/-! ## Model -/

abbrev Word := List UInt8

/-- the payload is `isEndOfWord` -/
abbrev Nodes := Trie.Arena (Fin 26) Bool

/-- the root -/
def newTrie : Nodes := [Trie.fresh false]

/-- `c - 'a'` -/
def offset (c : UInt8) : ℤ := c.toInt8.toInt - 'a'.toUInt8.toInt8.toInt

/-- the offset has to be in the array -/
def childIndex (c : UInt8) : Option (Fin 26) :=
  if h : 0 ≤ offset c ∧ offset c < 26 then some ⟨(offset c).toNat, by omega⟩ else none

def insertLoop : Nodes → ℕ → Word → Option (Nodes × ℕ)
  | nodes, node, [] => some (nodes, node)
  | nodes, node, c :: cs => (childIndex c).bind fun index =>
    let (nodes, node) := Trie.link false nodes node index
    insertLoop nodes node cs

def insert (nodes : Nodes) (root : ℕ) (word : Word) : Option Nodes :=
  (insertLoop nodes root word).map fun (nodes, node) => Trie.write nodes node true

/-- the node where the loop ends, or null -/
def searchLoop (nodes : Nodes) : ℕ → Word → Option (Option ℕ)
  | node, [] => some (some node)
  | node, c :: cs => (childIndex c).bind fun index =>
    match Trie.childAt nodes node index with
    | none => some none
    | some node => searchLoop nodes node cs

def search (nodes : Nodes) (root : ℕ) (word : Word) : Option Bool :=
  (searchLoop nodes root word).bind fun
    | none => some false
    | some node => Trie.payloadAt nodes node

def insertAll (words : List Word) : Option Nodes := words.foldlM (fun nodes word => insert nodes 0 word) newTrie

/-! ## Letters -/

def Letter (c : UInt8) : Prop := 'a'.toUInt8 ≤ c ∧ c ≤ 'z'.toUInt8

instance (c : UInt8) : Decidable (Letter c) := inferInstanceAs (Decidable (_ ∧ _))

def index (c : UInt8) : Fin 26 := (childIndex c).getD 0

def letter (i : Fin 26) : UInt8 := 'a'.toUInt8 + UInt8.ofNat i

theorem childIndex_letter : ∀ c : UInt8, Letter c → childIndex c = some (index c) ∧ letter (index c) = c :=
  Numeral.forall_byte (by decide +kernel)

theorem childIndex_other : ∀ c : UInt8, ¬Letter c → childIndex c = none :=
  Numeral.forall_byte (by decide +kernel)

variable {nodes : Nodes} {node : ℕ} {word u v : Word} {words : List Word} {c : UInt8}

/-- different words lead different ways -/
theorem map_index_inj (h : ∀ c ∈ u, Letter c) (h' : ∀ c ∈ v, Letter c) (heq : u.map index = v.map index) : u = v := by
  have hback : ∀ {w : Word}, (∀ c ∈ w, Letter c) → (w.map index).map letter = w := by
    intro w hw
    rw [List.map_map]
    exact (List.map_congr_left fun c hc => (childIndex_letter c (hw c hc)).2).trans (List.map_id w)
  rw [← hback h, heq, hback h']

theorem prefix_map_index (h : ∀ c ∈ u, Letter c) (h' : ∀ c ∈ v, Letter c) : u.map index <+: v.map index ↔ u <+: v := by
  refine ⟨fun hstart => ?_, fun hstart => hstart.map index⟩
  have hlength := hstart.length_le
  rw [List.prefix_iff_eq_take, List.length_map, ← List.map_take] at hstart
  rw [List.prefix_iff_eq_take]
  exact map_index_inj h (fun c hc => h' c (List.mem_of_mem_take hc)) hstart

theorem insertLoop_eq (h : ∀ c ∈ word, Letter c) (nodes : Nodes) (node : ℕ) :
    insertLoop nodes node word = some (Trie.extend false nodes node (word.map index)) := by
  induction word generalizing nodes node with
  | nil => rfl
  | cons c word ih =>
    rw [insertLoop, (childIndex_letter c (h c List.mem_cons_self)).1, Option.bind_some, List.map_cons, Trie.extend]
    exact ih (fun c hc => h c (List.mem_cons_of_mem _ hc)) _ _

theorem insertLoop_letters (h : (insertLoop nodes node word).isSome) : ∀ c ∈ word, Letter c := by
  induction word generalizing nodes node with
  | nil => exact List.forall_mem_nil _
  | cons c word ih =>
    rw [insertLoop] at h
    by_cases hc : Letter c
    · rw [(childIndex_letter c hc).1, Option.bind_some] at h
      exact List.forall_mem_cons.2 ⟨hc, ih h⟩
    · rw [childIndex_other c hc] at h
      cases h

/-- a search for letters, and whatever comes after them -/
theorem searchLoop_append (h : ∀ c ∈ u, Letter c) (nodes : Nodes) (node : ℕ) :
    searchLoop nodes node (u ++ v) = match Trie.walk nodes node (u.map index) with
      | none => some none
      | some node => searchLoop nodes node v := by
  induction u generalizing node with
  | nil => rfl
  | cons c u ih =>
    rw [List.cons_append, searchLoop, (childIndex_letter c (h c List.mem_cons_self)).1, Option.bind_some, List.map_cons, Trie.walk]
    cases Trie.childAt nodes node (index c) with
    | none => rfl
    | some q => exact ih (fun c hc => h c (List.mem_cons_of_mem _ hc)) q

/-! ## The words of the trie -/

structure Holds (nodes : Nodes) (words : List Word) : Prop where
  letters : ∀ w ∈ words, ∀ c ∈ w, Letter c
  trie : Trie.Holds nodes 0 {w | ∃ x ∈ words, w = x.map index}
  ends : ∀ w, (∀ c ∈ w, Letter c) → (Trie.content false nodes 0 (w.map index) = true ↔ w ∈ words)

theorem holds_newTrie : Holds newTrie [] := by
  refine ⟨List.forall_mem_nil _, ?_, fun w _ => ?_⟩
  · have hnone : {w : List (Fin 26) | ∃ x ∈ ([] : List Word), w = x.map index} = ∅ := by simp
    rw [hnone]
    exact Trie.holds_fresh
  · rw [newTrie, Trie.content_fresh]
    exact iff_of_false Bool.false_ne_true List.not_mem_nil

theorem insert_holds (h : Holds nodes words) (hword : ∀ c ∈ word, Letter c) :
    ∃ nodes', insert nodes 0 word = some nodes' ∧ Holds nodes' (words ++ [word]) := by
  have hroot : Trie.walk nodes 0 [] = some 0 := rfl
  obtain ⟨hsound, hwalk, hcontent⟩ := Trie.extend_spec (b := false) h.trie.sound hroot (word.map index)
  rw [List.nil_append] at hwalk
  have hextended := h.trie.extend (b := false) (word.map index)
  refine ⟨_, by rw [insert, insertLoop_eq hword, Option.map_some], fun w hw => ?_, ⟨Trie.sound_write hsound, fun w => ?_⟩,
    fun w hw => ?_⟩
  · rcases List.mem_append.1 hw with hw | hw
    · exact h.letters w hw
    · rwa [List.mem_singleton.1 hw]
  · rw [Trie.walk_write, hextended.walk_iff]
    simp [or_comm]
  · rw [Trie.content_write hsound hwalk, hcontent, List.mem_append, List.mem_singleton]
    by_cases heq : w = word
    · rw [if_pos (by rw [heq])]
      exact iff_of_true rfl (Or.inr heq)
    · rw [if_neg (mt (map_index_inj hw hword) heq), h.ends w hw, or_iff_left heq]

theorem insertAll_concat (words : List Word) (word : Word) :
    insertAll (words ++ [word]) = (insertAll words).bind fun nodes => insert nodes 0 word := by
  rw [insertAll, List.foldlM_append, ← insertAll]
  cases insertAll words with
  | none => rfl
  | some nodes =>
    rw [Option.bind_eq_bind, Option.bind_some, Option.bind_some, List.foldlM_cons]
    cases insert nodes 0 word <;> rfl

theorem insertAll_holds (h : ∀ w ∈ words, ∀ c ∈ w, Letter c) : ∃ nodes, insertAll words = some nodes ∧ Holds nodes words := by
  induction words using List.reverseRecOn with
  | nil => exact ⟨newTrie, rfl, holds_newTrie⟩
  | append_singleton words word ih =>
    obtain ⟨nodes, hnodes, hholds⟩ := ih fun w hw => h w (List.mem_append_left _ hw)
    obtain ⟨nodes', hinsert, hholds'⟩ := insert_holds hholds (h word (List.mem_append_right _ List.mem_cons_self))
    exact ⟨nodes', by rw [insertAll_concat, hnodes, Option.bind_some, hinsert], hholds'⟩

theorem insertAll_letters (h : (insertAll words).isSome) : ∀ w ∈ words, ∀ c ∈ w, Letter c := by
  induction words using List.reverseRecOn with
  | nil => exact List.forall_mem_nil _
  | append_singleton words word ih =>
    rw [insertAll_concat] at h
    obtain ⟨nodes, hnodes⟩ := Option.isSome_iff_exists.1 (Option.isSome_of_isSome_bind h)
    rw [hnodes, Option.bind_some, insert, Option.isSome_map] at h
    intro w hw
    rcases List.mem_append.1 hw with hw | hw
    · exact ih (by rw [hnodes]; rfl) w hw
    · rw [List.mem_singleton.1 hw]
      exact insertLoop_letters h

theorem search_letters (h : Holds nodes words) (hword : ∀ c ∈ word, Letter c) :
    search nodes 0 word = some (decide (word ∈ words)) := by
  have hloop := searchLoop_append (v := []) hword nodes 0
  rw [List.append_nil] at hloop
  have hends := h.ends word hword
  rw [Trie.content] at hends
  rw [search, hloop]
  cases hwalk : Trie.walk nodes 0 (word.map index) with
  | none =>
    rw [hwalk] at hends
    rw [decide_eq_false fun hmem => Bool.false_ne_true (hends.2 hmem)]
    rfl
  | some p =>
    have hp := Trie.walk_lt h.trie.sound hwalk
    have hpayload : Trie.payloadAt nodes p = some nodes[p].payload := by
      rw [Trie.payloadAt, List.getElem?_eq_getElem hp, Option.map_some]
    rw [hwalk, Option.bind_some, hpayload, Option.getD_some] at hends
    dsimp only
    rw [searchLoop, Option.bind_some]
    dsimp only
    have hanswer : decide (word ∈ words) = nodes[p].payload := by rw [Bool.eq_iff_iff, decide_eq_true_iff, hends]
    rw [hpayload, hanswer]

theorem search_other (h : Holds nodes words) (hu : ∀ c ∈ u, Letter c) (hc : ¬Letter c) :
    search nodes 0 (u ++ c :: v) = if u = [] ∨ ∃ x ∈ words, u <+: x then none else some false := by
  have hiff : (Trie.walk nodes 0 (u.map index)).isSome ↔ u = [] ∨ ∃ x ∈ words, u <+: x := by
    rw [h.trie.walk_iff, List.map_eq_nil_iff]
    refine or_congr_right ⟨?_, ?_⟩
    · rintro ⟨_, ⟨x, hx, rfl⟩, hstart⟩
      exact ⟨x, hx, (prefix_map_index hu (h.letters x hx)).1 hstart⟩
    · rintro ⟨x, hx, hstart⟩
      exact ⟨x.map index, ⟨x, hx, rfl⟩, hstart.map index⟩
  rw [search, searchLoop_append hu]
  cases hwalk : Trie.walk nodes 0 (u.map index) with
  | none =>
    rw [hwalk] at hiff
    rw [if_neg fun hor => Bool.false_ne_true (hiff.2 hor)]
    rfl
  | some p =>
    rw [hwalk] at hiff
    rw [if_pos (hiff.1 rfl)]
    dsimp only
    rw [searchLoop, childIndex_other c hc]
    rfl

/-- **The words.** Insertions go right if and only if all their words consist of letters from a to z. After them a search for a
word of such letters answers whether that word has been inserted. A word with another character is a fault if the letters before
the first such character begin an inserted word or there are none; else the answer is no. -/
theorem search_iff (words : List Word) :
    ((insertAll words).isSome ↔ ∀ w ∈ words, ∀ c ∈ w, Letter c) ∧
      ∀ nodes, insertAll words = some nodes →
        (∀ w, (∀ c ∈ w, Letter c) → search nodes 0 w = some (decide (w ∈ words))) ∧
        ∀ u c v, (∀ x ∈ u, Letter x) → ¬Letter c →
          search nodes 0 (u ++ c :: v) = if u = [] ∨ ∃ x ∈ words, u <+: x then none else some false := by
  refine ⟨⟨insertAll_letters, fun h => ?_⟩, fun nodes hnodes => ?_⟩
  · obtain ⟨nodes, hnodes, -⟩ := insertAll_holds h
    rw [hnodes]
    rfl
  · obtain ⟨nodes', hnodes', hholds⟩ := insertAll_holds (insertAll_letters (by rw [hnodes]; rfl))
    obtain rfl := Option.some.inj (hnodes.symm.trans hnodes')
    exact ⟨fun w hw => search_letters hholds hw, fun u c v hu hc => search_other hholds hu hc⟩

end InterviewPrep.WordTrie
