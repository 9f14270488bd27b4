/-
The trie of dnsCache/dnsCacheTrie.cpp.

A node has 27 children, for the letters and the dot; the nodes are in an arena and are never freed. `insert` and
`searchDNSCache` go down the trie along the first `len` characters of a URL, where `len` is `strlen(URL)` in an `int`. An index
outside `child` is a fault (`none`).

- `trie_is_map`: after insertions of URLs of letters and dots with fewer than 2 ^ 31 characters, `searchDNSCache` gives for
  such a URL the address of its last insertion, or null if there was none;
- `length_wraps`: a URL of 2 ^ 31 characters is inserted at the root.
-/
import InterviewPrep.Core.Numeral
import InterviewPrep.Core.Trie

namespace InterviewPrep.Dns.UrlTrie

open Numeral (int int_of_small)

/-! ## Model -/

/-- a string without its NUL -/
abbrev Text := List UInt8

def getIndex (c : UInt8) : ℤ := if c = '.'.toUInt8 then 26 else c.toInt8.toInt - 'a'.toUInt8.toInt8.toInt

def getCharFromIndex (i : Fin 27) : UInt8 := if i = 26 then '.'.toUInt8 else 'a'.toUInt8 + UInt8.ofNat i

/-- the fields of a `TrieNode` besides `child` -/
structure Mark where
  isLeaf : Bool
  ipAdd : Option Text
  deriving DecidableEq

/-- the nodes made so far -/
abbrev Nodes := Trie.Arena (Fin 27) Mark

/-- the fields that `newTrieNode` sets -/
def newMark : Mark := ⟨false, none⟩

/-- a trie that is only a root, node 0 -/
def newTrie : Nodes := [Trie.fresh newMark]

/-- `child[getIndex(c)]` has to be in the array -/
def childIndex (c : UInt8) : Option (Fin 27) :=
  if h : 0 ≤ getIndex c ∧ getIndex c < 27 then some ⟨(getIndex c).toNat, by omega⟩ else none

/-- the characters that a loop with `level < len` goes over -/
def visited (url : Text) : Text := url.take (int url.length).toNat

def insertLoop : Nodes → ℕ → Text → Option (Nodes × ℕ)
  | nodes, pCrawl, [] => some (nodes, pCrawl)
  | nodes, pCrawl, c :: cs => (childIndex c).bind fun index =>
    let (nodes, pCrawl) := Trie.link newMark nodes pCrawl index
    insertLoop nodes pCrawl cs

def insert (nodes : Nodes) (root : ℕ) (url ipAdd : Text) : Option Nodes :=
  (insertLoop nodes root (visited url)).map fun (nodes, pCrawl) => Trie.write nodes pCrawl ⟨true, some ipAdd⟩

/-- the node where the loop ends, or null -/
def searchLoop (nodes : Nodes) : ℕ → Text → Option (Option ℕ)
  | pCrawl, [] => some (some pCrawl)
  | pCrawl, c :: cs => (childIndex c).bind fun index =>
    match Trie.childAt nodes pCrawl index with
    | none => some none
    | some pCrawl => searchLoop nodes pCrawl cs

/-- the address that is returned, or null -/
def searchDNSCache (nodes : Nodes) (root : ℕ) (url : Text) : Option (Option Text) :=
  (searchLoop nodes root (visited url)).bind fun
    | none => some none
    | some pCrawl => (Trie.payloadAt nodes pCrawl).map fun mark => if mark.isLeaf then mark.ipAdd else none

def insertAll (inserts : List (Text × Text)) : Option Nodes :=
  inserts.foldlM (fun nodes entry => insert nodes 0 entry.1 entry.2) newTrie

/-! ### What it is for -/

/-- a letter or a dot -/
def Letter (c : UInt8) : Prop := ('a'.toUInt8 ≤ c ∧ c ≤ 'z'.toUInt8) ∨ c = '.'.toUInt8

instance (c : UInt8) : Decidable (Letter c) := inferInstanceAs (Decidable (_ ∨ _))

/-- the address of the last insertion of the URL -/
def lastIp (inserts : List (Text × Text)) (url : Text) : Option Text :=
  (inserts.reverse.find? fun entry => entry.1 = url).map Prod.snd

/-! ## Words -/

/-- the index of a letter -/
def index (c : UInt8) : Fin 27 := (childIndex c).getD 0

theorem childIndex_letter : ∀ c : UInt8, Letter c → childIndex c = some (index c) ∧ getCharFromIndex (index c) = c :=
  Numeral.forall_byte (by decide +kernel)

variable {nodes : Nodes} {p : ℕ} {url ipAdd : Text} {inserts : List (Text × Text)}

/-- different URLs are different words -/
theorem map_index_inj {url' : Text} (h : ∀ c ∈ url, Letter c) (h' : ∀ c ∈ url', Letter c)
    (heq : url.map index = url'.map index) : url = url' := by
  have hback : ∀ {w : Text}, (∀ c ∈ w, Letter c) → (w.map index).map getCharFromIndex = w := by
    intro w hw
    rw [List.map_map]
    exact (List.map_congr_left fun c hc => (childIndex_letter c (hw c hc)).2).trans (List.map_id w)
  rw [← hback h, heq, hback h']

theorem visited_of_short (h : url.length < 2 ^ 31) : visited url = url := by
  have hint : int url.length = url.length := int_of_small (by omega) (by omega)
  rw [visited, hint, Int.toNat_natCast, List.take_length]

theorem insertLoop_eq (h : ∀ c ∈ url, Letter c) (nodes : Nodes) (p : ℕ) :
    insertLoop nodes p url = some (Trie.extend newMark nodes p (url.map index)) := by
  induction url generalizing nodes p with
  | nil => rfl
  | cons c url ih =>
    rw [insertLoop, (childIndex_letter c (h c List.mem_cons_self)).1, Option.bind_some, List.map_cons, Trie.extend]
    exact ih (fun c hc => h c (List.mem_cons_of_mem _ hc)) _ _

theorem searchLoop_eq (h : ∀ c ∈ url, Letter c) (nodes : Nodes) (p : ℕ) :
    searchLoop nodes p url = some (Trie.walk nodes p (url.map index)) := by
  induction url generalizing p with
  | nil => rfl
  | cons c url ih =>
    rw [searchLoop, (childIndex_letter c (h c List.mem_cons_self)).1, Option.bind_some, List.map_cons, Trie.walk]
    cases Trie.childAt nodes p (index c) with
    | none => rfl
    | some q => exact ih (fun c hc => h c (List.mem_cons_of_mem _ hc)) q

/-! ## The map -/

/-- the address that a mark gives -/
def Mark.answer (mark : Mark) : Option Text := if mark.isLeaf then mark.ipAdd else none

/-- the trie answers as the insertions say -/
structure Holds (nodes : Nodes) (inserts : List (Text × Text)) : Prop where
  sound : Trie.Sound nodes 0
  answers : ∀ url, (∀ c ∈ url, Letter c) →
    (Trie.content newMark nodes 0 (url.map index)).answer = lastIp inserts url

theorem holds_newTrie : Holds newTrie [] := by
  refine ⟨Trie.sound_fresh, fun url _ => ?_⟩
  rw [newTrie, Trie.content_fresh]
  rfl

theorem lastIp_concat (inserts : List (Text × Text)) (url ipAdd url' : Text) :
    lastIp (inserts ++ [(url, ipAdd)]) url' = if url' = url then some ipAdd else lastIp inserts url' := by
  unfold lastIp
  rw [List.reverse_concat, List.find?_cons]
  split_ifs with h
  · rw [decide_eq_true h.symm, Option.map_some]
  · rw [decide_eq_false (Ne.symm h)]

theorem insert_holds (h : Holds nodes inserts) (hurl : ∀ c ∈ url, Letter c) (hshort : url.length < 2 ^ 31) (ipAdd : Text) :
    ∃ nodes', insert nodes 0 url ipAdd = some nodes' ∧ Holds nodes' (inserts ++ [(url, ipAdd)]) := by
  have hroot : Trie.walk nodes 0 [] = some 0 := rfl
  obtain ⟨hsound, hwalk, hcontent⟩ := Trie.extend_spec (b := newMark) h.sound hroot (url.map index)
  rw [List.nil_append] at hwalk
  refine ⟨_, by rw [insert, visited_of_short hshort, insertLoop_eq hurl, Option.map_some], Trie.sound_write hsound, ?_⟩
  intro url' hurl'
  rw [Trie.content_write hsound hwalk, hcontent, lastIp_concat]
  by_cases heq : url' = url
  · rw [if_pos heq, heq, if_pos rfl]
    rfl
  · rw [if_neg heq, if_neg (mt (map_index_inj hurl' hurl) heq), h.answers url' hurl']

theorem search_eq (h : Holds nodes inserts) (hurl : ∀ c ∈ url, Letter c) (hshort : url.length < 2 ^ 31) :
    searchDNSCache nodes 0 url = some (lastIp inserts url) := by
  rw [← h.answers url hurl, searchDNSCache, visited_of_short hshort, searchLoop_eq hurl, Option.bind_some, Trie.content]
  cases hwalk : Trie.walk nodes 0 (url.map index) with
  | none => rfl
  | some p =>
    have hp := Trie.walk_lt h.sound hwalk
    have hpayload : Trie.payloadAt nodes p = some nodes[p].payload := by
      rw [Trie.payloadAt, List.getElem?_eq_getElem hp, Option.map_some]
    dsimp only
    rw [Option.bind_some, hpayload]
    rfl

/-- **The map.** After insertions of URLs over the letters and the dot with fewer than 2 ^ 31 characters, a search for such a
URL finds the address that was inserted last with exactly that URL, and null if there was none. -/
theorem trie_is_map (inserts : List (Text × Text))
    (hinserts : ∀ entry ∈ inserts, (∀ c ∈ entry.1, Letter c) ∧ entry.1.length < 2 ^ 31) (url : Text)
    (hurl : ∀ c ∈ url, Letter c) (hshort : url.length < 2 ^ 31) :
    ∃ nodes, insertAll inserts = some nodes ∧ searchDNSCache nodes 0 url = some (lastIp inserts url) := by
  have hall : ∃ nodes, insertAll inserts = some nodes ∧ Holds nodes inserts := by
    induction inserts using List.reverseRecOn with
    | nil => exact ⟨newTrie, rfl, holds_newTrie⟩
    | append_singleton inserts entry ih =>
      obtain ⟨nodes, hnodes, hholds⟩ := ih fun e he => hinserts e (List.mem_append_left _ he)
      obtain ⟨hletters, hlength⟩ := hinserts entry (List.mem_append_right _ List.mem_cons_self)
      obtain ⟨nodes', hinsert, hholds'⟩ := insert_holds hholds hletters hlength entry.2
      refine ⟨nodes', ?_, hholds'⟩
      rw [insertAll, List.foldlM_append, ← insertAll, hnodes, Option.bind_eq_bind, Option.bind_some, List.foldlM_cons,
        hinsert]
      rfl
  obtain ⟨nodes, hnodes, hholds⟩ := hall
  exact ⟨nodes, hnodes, search_eq hholds hurl hshort⟩

/-- a URL, a longer one and the empty one, each inserted, the first of them twice -/
theorem trie_is_map_nested :
    ∃ nodes, insertAll [([97], [1]), ([97, 46, 98], [2]), ([], [3]), ([97], [4])] = some nodes ∧
      searchDNSCache nodes 0 [97] = some (some [4]) := by
  have h := trie_is_map [([97], [1]), ([97, 46, 98], [2]), ([], [3]), ([97], [4])] (by decide +kernel) [97]
    (by decide +kernel) (by decide)
  exact h

/-- the loop does not run -/
theorem visited_of_wrapped (h : url.length = 2 ^ 31) : visited url = [] := by
  have hint : (int url.length).toNat = 0 := by
    rw [h]
    decide
  rw [visited, hint, List.take_zero]

/-- a URL whose length is negative in an `int` goes to the root -/
theorem insert_wrapped (h : url.length = 2 ^ 31) (ipAdd : Text) :
    lastIp [(url, ipAdd)] [] = none ∧
    ∃ nodes, insertAll [(url, ipAdd)] = some nodes ∧ searchDNSCache nodes 0 [] = some (some ipAdd) := by
  have hne : ([] : Text) ≠ url := fun heq => by
    rw [← heq] at h
    cases h
  refine ⟨?_, Trie.write newTrie 0 ⟨true, some ipAdd⟩, ?_, rfl⟩
  · have hlast := lastIp_concat [] url ipAdd []
    rwa [if_neg hne] at hlast
  · have hinsert : insert newTrie 0 url ipAdd = some (Trie.write newTrie 0 ⟨true, some ipAdd⟩) := by
      rw [insert, visited_of_wrapped h]
      rfl
    rw [insertAll, List.foldlM_cons, hinsert]
    rfl

/-- **The length wraps.** After a URL of 2 ^ 31 letters has been inserted, its address is found for the empty URL, which has
never been inserted. -/
theorem length_wraps :
    (∀ c ∈ List.replicate (2 ^ 31) 'a'.toUInt8, Letter c) ∧
    lastIp [(List.replicate (2 ^ 31) 'a'.toUInt8, [1])] [] = none ∧
    ∃ nodes, insertAll [(List.replicate (2 ^ 31) 'a'.toUInt8, [1])] = some nodes ∧
      searchDNSCache nodes 0 [] = some (some [1]) := by
  refine ⟨fun c hc => ?_, insert_wrapped List.length_replicate [1]⟩
  rw [List.eq_of_mem_replicate hc]
  decide

end InterviewPrep.Dns.UrlTrie
