/-
The largest XOR of two numbers, by a binary trie: maxXOR/main.cpp.

An `int` has 32 bits in two's complement, `>>` keeps the sign and `max` compares signed. The trie is an arena of nodes without
payload whose letters are bits (`Core/Trie`), the root is node 0. The number is read from bit 31 down to bit 0. A null pointer is
`none`, and a child of a null pointer makes the call `none`: nothing in the loops tests the pointer that a query is left with.
- `insert`: the missing nodes of the number are made;
- `getMaxXOR`: goes to the child for the opposite bit where there is one, and sets the bit in the result;
- `insertAndGetMaxXOR`: both in one loop, each with a cursor of its own;
- `findMaximumXOR`: the fused operation for every number, and the largest of its results and 0.

- `insertAndGetMaxXOR_eq`: the fused loop is the insertion and then the query, on the same trie: what is inserted later in the loop is
  below every node that the query looks at;
- `getMaxXOR_best`: the query finds the largest XOR, read as unsigned, with the numbers in the trie;
- `findMaximumXOR_greatest`: for numbers that are not negative the result is the largest XOR of two of them;
- `order_irrelevant_iff`: with numbers of both signs it depends on their order, except in a few cases.
-/
import Mathlib.Data.Nat.Bitwise
import Mathlib.Tactic
import InterviewPrep.Core.Trie

namespace InterviewPrep.MaxXor

open Trie (Arena childAt walk link extend fresh)

/-! ## Model -/

abbrev Nodes := Arena Bool Unit

/-- `Trie()` -/
def empty : Nodes := [fresh ()]

/-- `(num >> i) & 1` -/
def bit (num : BitVec 32) (i : ℕ) : Bool := num.sshiftRight i &&& 1#32 != 0#32

/-- the iterations of `insert` for the bits below `n`, from `node` on -/
def insertLoop (num : BitVec 32) : ℕ → Nodes → ℕ → Nodes
  | 0, trie, _ => trie
  | i + 1, trie, node =>
    let (trie, node) := link () trie node (bit num i)
    insertLoop num i trie node

def insert (trie : Nodes) (num : BitVec 32) : Nodes := insertLoop num 32 trie 0

/-- the iterations of `getMaxXOR` for the bits below `n`, from `node` on -/
def queryLoop (trie : Nodes) (num : BitVec 32) : ℕ → Option ℕ → BitVec 32 → Option (BitVec 32)
  | 0, _, maxXor => some maxXor
  | _ + 1, none, _ => none
  | i + 1, some node, maxXor =>
    match childAt trie node (!bit num i) with
    | some next => queryLoop trie num i (some next) (maxXor ||| 1#32 <<< i)
    | none => queryLoop trie num i (childAt trie node (bit num i)) maxXor

def getMaxXOR (trie : Nodes) (num : BitVec 32) : Option (BitVec 32) := queryLoop trie num 32 (some 0) 0#32

/-- the iterations of `insertAndGetMaxXOR` for the bits below `n` -/
def fusedLoop (num : BitVec 32) : ℕ → Nodes → ℕ → Option ℕ → BitVec 32 → Option (Nodes × BitVec 32)
  | 0, trie, _, _, maxXor => some (trie, maxXor)
  | _ + 1, _, _, none, _ => none
  | i + 1, trie, insertNode, some queryNode, maxXor =>
    let (trie, insertNode) := link () trie insertNode (bit num i)
    match childAt trie queryNode (!bit num i) with
    | some next => fusedLoop num i trie insertNode (some next) (maxXor ||| 1#32 <<< i)
    | none => fusedLoop num i trie insertNode (childAt trie queryNode (bit num i)) maxXor

def insertAndGetMaxXOR (trie : Nodes) (num : BitVec 32) : Option (Nodes × BitVec 32) :=
  fusedLoop num 32 trie 0 (some 0) 0#32

/-- `std::max` on `int` -/
def max (a b : BitVec 32) : BitVec 32 := if a.slt b then b else a

/-- the loop over the numbers -/
def maxLoop : List (BitVec 32) → Nodes → BitVec 32 → Option (BitVec 32)
  | [], _, maxResult => some maxResult
  | num :: nums, trie, maxResult =>
    (insertAndGetMaxXOR trie num).bind fun (trie, v) => maxLoop nums trie (max maxResult v)

def findMaximumXOR (nums : List (BitVec 32)) : Option (BitVec 32) := maxLoop nums empty 0#32

/-! ## Bits -/

variable {num x y z v m : BitVec 32} {n i j : ℕ} {trie : Nodes} {S : Set (BitVec 32)} {u : List Bool} {p q : ℕ}

theorem bit_eq (hi : i < 32) : bit num i = num.getLsbD i := by
  have hbits : ∀ j, j < 32 → (num.sshiftRight i &&& 1#32).getLsbD j = (decide (j = 0) && num.getLsbD i) := by
    intro j hj
    rw [BitVec.getLsbD_and, BitVec.getLsbD_sshiftRight, BitVec.getLsbD_one]
    by_cases hzero : j = 0
    · subst hzero
      simp [hi]
    · simp [hzero]
  unfold bit
  cases hbit : num.getLsbD i with
  | false =>
    have hzero : num.sshiftRight i &&& 1#32 = 0#32 := by
      refine BitVec.eq_of_getLsbD_eq fun j hj => ?_
      rw [hbits j hj, hbit, Bool.and_false, BitVec.getLsbD_zero]
    simp [hzero]
  | true =>
    have hone : num.sshiftRight i &&& 1#32 ≠ 0#32 := by
      intro hzero
      have := hbits 0 (by decide)
      rw [hzero, hbit] at this
      simp at this
    simp [hone]

/-- `maxXor |= (1 << n)` -/
theorem getLsbD_set (hn : n < 32) (m : BitVec 32) (j : ℕ) :
    (m ||| 1#32 <<< n).getLsbD j = (m.getLsbD j || decide (j = n)) := by
  rw [BitVec.getLsbD_or, BitVec.getLsbD_shiftLeft, BitVec.getLsbD_one]
  congr 1
  by_cases hj : j = n
  · subst hj
    simp [hn]
  · by_cases hlt : j < n
    · simp [hj, hlt]
    · have : j - n ≠ 0 := by omega
      simp [hj, this]

/-- the bits below `n`, from the most significant on -/
def word (num : BitVec 32) : ℕ → List Bool
  | 0 => []
  | n + 1 => bit num n :: word num n

theorem drop_word (num : BitVec 32) (n k : ℕ) : (word num (n + k)).drop k = word num n := by
  induction k with
  | zero => rfl
  | succ k ih => exact ih

/-- a beginning of the word of a number is followed by the word of the bits that remain -/
theorem word_eq_append (h : u <+: word x 32) (hlen : u.length + n = 32) : word x 32 = u ++ word x n := by
  obtain ⟨rest, hrest⟩ := h
  have hdrop := drop_word x n u.length
  rw [Nat.add_comm, hlen, ← hrest, List.drop_left] at hdrop
  rw [← hdrop, hrest]

/-- a letter more is a bit more -/
theorem concat_prefix_iff (hlen : u.length + (n + 1) = 32) (c : Bool) :
    u ++ [c] <+: word x 32 ↔ u <+: word x 32 ∧ bit x n = c := by
  constructor
  · intro h
    have hu : u <+: word x 32 := (List.prefix_append u [c]).trans h
    rw [word_eq_append hu hlen, List.prefix_append_right_inj, word, List.cons_prefix_cons] at h
    exact ⟨hu, h.1.symm⟩
  · intro h
    rw [word_eq_append h.1 hlen, List.prefix_append_right_inj, word, List.cons_prefix_cons]
    exact ⟨h.2.symm, List.nil_prefix⟩

/-! ## The trie of a set of numbers -/

/-- the paths of the trie are the words of the numbers -/
def Stores (trie : Nodes) (S : Set (BitVec 32)) : Prop := Trie.Holds trie 0 ((fun x => word x 32) '' S)

theorem Stores.walk_iff (h : Stores trie S) (w : List Bool) :
    (walk trie 0 w).isSome ↔ w = [] ∨ ∃ x ∈ S, w <+: word x 32 := by
  rw [Trie.Holds.walk_iff h, Set.exists_mem_image]

theorem insertLoop_eq (num : BitVec 32) (n : ℕ) (trie : Nodes) (node : ℕ) :
    insertLoop num n trie node = (extend () trie node (word num n)).1 := by
  induction n generalizing trie node with
  | zero => rfl
  | succ n ih =>
    rw [insertLoop, word, extend]
    exact ih _ _

theorem stores_empty : Stores empty ∅ := by
  rw [Stores, Set.image_empty]
  exact Trie.holds_fresh

theorem Stores.insert (h : Stores trie S) (num : BitVec 32) : Stores (insert trie num) (Insert.insert num S) := by
  rw [Stores, Set.image_insert_eq, MaxXor.insert, insertLoop_eq]
  exact Trie.Holds.extend h (word num 32)

/-! ## The query finds the largest XOR -/

/-- the largest XOR, read as unsigned, of the number with one of `S` -/
structure IsBest (num : BitVec 32) (S : Set (BitVec 32)) (v : BitVec 32) : Prop where
  attained : ∃ y ∈ S, v = num ^^^ y
  largest : ∀ z ∈ S, (num ^^^ z).toNat ≤ v.toNat

/-- the query, at the end of the word `u`, with the bits below `n` left: `m` has the bits from `n` on of the XOR with every
number that continues `u` -/
structure Query (trie : Nodes) (num : BitVec 32) (S : Set (BitVec 32)) (n : ℕ) (u : List Bool) (p : ℕ) (m : BitVec 32) :
    Prop where
  length : u.length + n = 32
  node : walk trie 0 u = some p
  upper : ∀ y ∈ S, u <+: word y 32 → ∀ j, m.getLsbD j = (decide (n ≤ j) && (num ^^^ y).getLsbD j)

theorem toNat_lt_of_bit (hx : x.getLsbD i = false) (hy : y.getLsbD i = true)
    (h : ∀ j, i < j → x.getLsbD j = y.getLsbD j) : x.toNat < y.toNat :=
  Nat.lt_of_testBit i hx hy h

theorem getLsbD_xor_of_bit (hn : n < 32) {c : Bool} (h : bit y n = c) :
    (num ^^^ y).getLsbD n = (bit num n ^^ c) := by
  rw [BitVec.getLsbD_xor, ← h, bit_eq hn, bit_eq hn]

/-- to the child for the opposite bit -/
theorem Query.opposite (h : Query trie num S (n + 1) u p m) (hchild : childAt trie p (!bit num n) = some q) :
    Query trie num S n (u ++ [!bit num n]) q (m ||| 1#32 <<< n) := by
  have hlen := h.length
  refine ⟨by rw [List.length_append, List.length_singleton]; omega, ?_, fun y hy hu j => ?_⟩
  · rw [Trie.walk_concat, h.node, Option.bind_some, hchild]
  · obtain ⟨hu, hbit⟩ := (concat_prefix_iff hlen _).1 hu
    rw [getLsbD_set (by omega), h.upper y hy hu]
    by_cases hj : j = n
    · rw [hj, getLsbD_xor_of_bit (by omega) hbit]
      simp
    · have : n + 1 ≤ j ↔ n ≤ j := by omega
      simp [hj, this]

/-- to the child for the same bit, if no number that continues `u` has the opposite one -/
theorem Query.same (h : Query trie num S (n + 1) u p m) (hchild : childAt trie p (bit num n) = some q) :
    Query trie num S n (u ++ [bit num n]) q m := by
  have hlen := h.length
  refine ⟨by rw [List.length_append, List.length_singleton]; omega, ?_, fun y hy hu j => ?_⟩
  · rw [Trie.walk_concat, h.node, Option.bind_some, hchild]
  · obtain ⟨hu, hbit⟩ := (concat_prefix_iff hlen _).1 hu
    rw [h.upper y hy hu]
    by_cases hj : j = n
    · rw [hj, getLsbD_xor_of_bit (by omega) hbit]
      simp
    · have : n + 1 ≤ j ↔ n ≤ j := by omega
      simp [this]

/-- a node has the child for a bit exactly if a number continues its word with that bit -/
theorem Query.child_iff (hs : Stores trie S) (h : Query trie num S (n + 1) u p m) (c : Bool) :
    (childAt trie p c).isSome ↔ ∃ y ∈ S, u <+: word y 32 ∧ bit y n = c := by
  have hwalk := hs.walk_iff (u ++ [c])
  rw [Trie.walk_concat, h.node, Option.bind_some] at hwalk
  rw [hwalk]
  simp only [concat_prefix_iff h.length, List.append_eq_nil_iff, List.cons_ne_self, and_false, false_or]

/-- of two numbers below a node the one with the opposite bit has the larger XOR -/
theorem Query.lt (h : Query trie num S (n + 1) u p m) (hy : y ∈ S) (hyu : u <+: word y 32) (hybit : bit y n = !bit num n)
    (hz : z ∈ S) (hzu : u <+: word z 32) (hzbit : bit z n = bit num n) : (num ^^^ z).toNat < (num ^^^ y).toNat := by
  have hlen := h.length
  refine toNat_lt_of_bit (i := n) ?_ ?_ fun j hj => ?_
  · rw [getLsbD_xor_of_bit (by omega) hzbit, Bool.xor_self]
  · rw [getLsbD_xor_of_bit (by omega) hybit]
    simp
  · have hz := h.upper z hz hzu j
    have hy := h.upper y hy hyu j
    have : n + 1 ≤ j := hj
    simp only [this, decide_true, Bool.true_and] at hz hy
    rw [← hz, ← hy]

/-- without a child for the opposite bit every number below the node has the same bit -/
theorem Query.same_of_none (hs : Stores trie S) (h : Query trie num S (n + 1) u p m)
    (hopp : childAt trie p (!bit num n) = none) (hz : z ∈ S) (hzu : u <+: word z 32) : bit z n = bit num n := by
  by_contra hne
  have hchild : (childAt trie p (!bit num n)).isSome :=
    (h.child_iff hs _).2 ⟨z, hz, hzu, by cases hb : bit num n <;> simp_all⟩
  rw [hopp] at hchild
  cases hchild

/-- **The greedy descent.** From a node below which there is a number, the query ends, and its result is the XOR with one of
the numbers below the node that is the largest of these, read as unsigned. -/
theorem queryLoop_best (hs : Stores trie S) (h : Query trie num S n u p m) (hsome : ∃ y ∈ S, u <+: word y 32) :
    ∃ y ∈ S, u <+: word y 32 ∧ queryLoop trie num n (some p) m = some (num ^^^ y) ∧
      ∀ z ∈ S, u <+: word z 32 → (num ^^^ z).toNat ≤ (num ^^^ y).toNat := by
  induction n generalizing u p m with
  | zero =>
    -- all bits of the result are set
    have hall : ∀ y ∈ S, u <+: word y 32 → m = num ^^^ y := by
      intro y hy hu
      refine BitVec.eq_of_getLsbD_eq fun j _ => ?_
      rw [h.upper y hy hu]
      simp
    obtain ⟨y, hy, hu⟩ := hsome
    refine ⟨y, hy, hu, congrArg some (hall y hy hu), fun z hz huz => ?_⟩
    rw [← hall z hz huz, ← hall y hy hu]
  | succ n ih =>
    have hlen := h.length
    have hchild := h.child_iff hs
    cases hopp : childAt trie p (!bit num n) with
    | some q =>
      obtain ⟨x, hx, hxu⟩ := (hchild (!bit num n)).1 (by rw [hopp]; rfl)
      obtain ⟨y, hy, hu, hloop, hlargest⟩ := ih (h.opposite hopp) ⟨x, hx, (concat_prefix_iff hlen _).2 hxu⟩
      obtain ⟨hyu, hybit⟩ := (concat_prefix_iff hlen _).1 hu
      refine ⟨y, hy, hyu, by rw [queryLoop, hopp]; exact hloop, fun z hz hzu => ?_⟩
      by_cases hzbit : bit z n = bit num n
      · exact (h.lt hy hyu hybit hz hzu hzbit).le
      · have hzopp : bit z n = !bit num n := by cases hb : bit num n <;> simp_all
        exact hlargest z hz ((concat_prefix_iff hlen _).2 ⟨hzu, hzopp⟩)
    | none =>
      have hsame : ∀ z ∈ S, u <+: word z 32 → u ++ [bit num n] <+: word z 32 := fun z hz hzu =>
        (concat_prefix_iff hlen _).2 ⟨hzu, h.same_of_none hs hopp hz hzu⟩
      obtain ⟨x, hx, hxu⟩ := hsome
      obtain ⟨q, hq⟩ := Option.isSome_iff_exists.1
        ((hchild (bit num n)).2 ⟨x, hx, (concat_prefix_iff hlen _).1 (hsame x hx hxu)⟩)
      obtain ⟨y, hy, hu, hloop, hlargest⟩ := ih (h.same hq) ⟨x, hx, hsame x hx hxu⟩
      refine ⟨y, hy, ((concat_prefix_iff hlen _).1 hu).1, ?_, fun z hz hzu => hlargest z hz (hsame z hz hzu)⟩
      rw [queryLoop, hopp]
      dsimp only
      rw [hq]
      exact hloop

/-- **The query.** On the trie of a set of numbers that is not empty it returns the largest XOR with one of them. -/
theorem getMaxXOR_best (hs : Stores trie S) (hS : S.Nonempty) (num : BitVec 32) :
    ∃ v, getMaxXOR trie num = some v ∧ IsBest num S v := by
  have hstart : Query trie num S 32 [] 0 0#32 := by
    refine ⟨rfl, rfl, fun y _ _ j => ?_⟩
    by_cases hj : 32 ≤ j
    · rw [BitVec.getLsbD_of_ge _ j hj, BitVec.getLsbD_of_ge _ j hj, Bool.and_false]
    · simp [hj]
  obtain ⟨x, hx⟩ := hS
  obtain ⟨y, hy, -, hloop, hlargest⟩ := queryLoop_best hs hstart ⟨x, hx, List.nil_prefix⟩
  exact ⟨num ^^^ y, hloop, ⟨y, hy, rfl⟩, fun z hz => hlargest z hz List.nil_prefix⟩

/-! ## The fused loop -/

/-- **Two cursors.** With both cursors at the same depth, the rest of the fused loop makes the nodes that the insertion makes, and
returns what the query returns on the trie with all of them: the insertion only goes on below the depth of the query. -/
theorem fusedLoop_eq {w : List Bool} {insertNode : ℕ} (hs : Trie.Sound trie 0) (hins : walk trie 0 w = some insertNode)
    (queryNode : Option ℕ) (hquery : ∀ p, queryNode = some p → ∃ u, walk trie 0 u = some p ∧ u.length = w.length)
    (n : ℕ) (m : BitVec 32) :
    fusedLoop num n trie insertNode queryNode m =
      (queryLoop (extend () trie insertNode (word num n)).1 num n queryNode m).map fun v =>
        ((extend () trie insertNode (word num n)).1, v) := by
  induction n generalizing trie insertNode w queryNode m with
  | zero => rfl
  | succ n ih =>
    cases queryNode with
    | none => rfl
    | some p =>
      obtain ⟨u, hu, hlen⟩ := hquery p rfl
      obtain ⟨hlink, hnode, -⟩ := Trie.link_spec (b := ()) hs hins (bit num n)
      have hu' := Trie.walk_link_short (b := ()) hs hins hlen.le (bit num n)
      have hsame := Trie.childAt_extend_cons (b := ()) hs hins hu hlen.le (bit num n) (word num n)
      set trie' := (link () trie insertNode (bit num n)).1
      set insertNode' := (link () trie insertNode (bit num n)).2
      have hchild : ∀ c r, childAt trie' p c = some r →
          ∃ u, walk trie' 0 u = some r ∧ u.length = (w ++ [bit num n]).length := by
        intro c r hr
        refine ⟨u ++ [c], by rw [Trie.walk_concat, hu', hu, Option.bind_some, hr], ?_⟩
        rw [List.length_append, List.length_append, hlen]
        rfl
      have hstep : fusedLoop num (n + 1) trie insertNode (some p) m =
          match childAt trie' p (!bit num n) with
          | some next => fusedLoop num n trie' insertNode' (some next) (m ||| 1#32 <<< n)
          | none => fusedLoop num n trie' insertNode' (childAt trie' p (bit num n)) m := rfl
      rw [hstep, word, queryLoop, hsame]
      cases hopp : childAt trie' p (!bit num n) with
      | some next =>
        refine ih hlink hnode (some next) (fun r hr => ?_) _
        obtain rfl := Option.some.inj hr
        exact hchild _ _ hopp
      | none =>
        dsimp only
        rw [hsame]
        exact ih hlink hnode _ (fun r hr => hchild _ r hr) _

theorem insertAndGetMaxXOR_map (hs : Stores trie S) (num : BitVec 32) :
    insertAndGetMaxXOR trie num = (getMaxXOR (insert trie num) num).map fun v => (insert trie num, v) := by
  have hroot : walk trie 0 [] = some 0 := rfl
  rw [insertAndGetMaxXOR, getMaxXOR, insert, insertLoop_eq]
  refine fusedLoop_eq (Trie.Holds.sound hs) hroot (some 0) (fun p hp => ⟨[], ?_, rfl⟩) 32 0#32
  rw [hroot, hp]

/-- one call of the fused operation on the trie of a set of numbers -/
theorem insertAndGetMaxXOR_spec (hs : Stores trie S) (num : BitVec 32) :
    ∃ v, insertAndGetMaxXOR trie num = some (insert trie num, v) ∧ getMaxXOR (insert trie num) num = some v ∧
      IsBest num (Insert.insert num S) v := by
  obtain ⟨v, hv, hbest⟩ := getMaxXOR_best (hs.insert num) ⟨num, Set.mem_insert num S⟩ num
  exact ⟨v, by rw [insertAndGetMaxXOR_map hs, hv, Option.map_some], hv, hbest⟩

/-- the trie after a sequence of insertions -/
def build (nums : List (BitVec 32)) : Nodes := nums.foldl insert empty

theorem stores_build (nums : List (BitVec 32)) : Stores (build nums) {x | x ∈ nums} := by
  induction nums using List.reverseRecOn with
  | nil => simpa [build] using stores_empty
  | append_singleton nums num ih =>
    have hset : {x | x ∈ nums ++ [num]} = Insert.insert num {x | x ∈ nums} := by
      ext x
      simp [or_comm]
    rw [hset, build, List.foldl_concat]
    exact ih.insert num

/-- **Fused is plain.** On every trie built by insertions, `insertAndGetMaxXOR` returns what `getMaxXOR` returns after `insert`, and
leaves the trie that `insert` leaves, node for node; neither dereferences a null pointer. -/
theorem insertAndGetMaxXOR_eq (nums : List (BitVec 32)) (num : BitVec 32) :
    ∃ v, insertAndGetMaxXOR (build nums) num = some (insert (build nums) num, v) ∧
      getMaxXOR (insert (build nums) num) num = some v := by
  obtain ⟨v, hfused, hplain, -⟩ := insertAndGetMaxXOR_spec (stores_build nums) num
  exact ⟨v, hfused, hplain⟩

/-! ## The loop over the numbers -/

theorem toInt_neg_iff : x.toInt < 0 ↔ x.msb = true := by
  rw [BitVec.msb_eq_toInt, decide_eq_true_eq]

theorem toInt_nonneg_iff : 0 ≤ x.toInt ↔ x.msb = false := by
  rw [← not_lt, toInt_neg_iff, Bool.not_eq_true]

theorem toInt_of_nonneg (h : x.msb = false) : x.toInt = x.toNat := by
  rw [BitVec.toInt_eq_msb_cond, h]
  rfl

/-- a negative number does not count -/
theorem max_neg (hm : m.msb = false) (hv : v.msb = true) : max m v = m := by
  have hle : ¬ m.toInt < v.toInt := by
    have := toInt_nonneg_iff.2 hm
    have := toInt_neg_iff.2 hv
    omega
  rw [max, if_neg (by rwa [BitVec.slt_iff_toInt_lt])]

/-- of two that are not negative it is the larger, read as unsigned -/
theorem max_nonneg (hm : m.msb = false) (hv : v.msb = false) :
    max m v = if m.toNat < v.toNat then v else m := by
  unfold max
  refine if_congr ?_ rfl rfl
  rw [BitVec.slt_iff_toInt_lt, toInt_of_nonneg hm, toInt_of_nonneg hv]
  omega

theorem msb_eq_true_of_le (h : x.toNat ≤ y.toNat) (hx : x.msb = true) : y.msb = true := by
  rw [BitVec.msb_eq_decide, decide_eq_true_eq] at hx ⊢
  omega

/-- with a number of the other sign in the trie the largest XOR has the sign bit set -/
theorem IsBest.neg (h : IsBest num S v) (hother : ∃ y ∈ S, y.msb ≠ num.msb) : v.msb = true := by
  obtain ⟨y, hy, hne⟩ := hother
  refine msb_eq_true_of_le (h.largest y hy) ?_
  rw [BitVec.msb_xor]
  cases hn : num.msb <;> simp_all

/-- with numbers of one sign it has not -/
theorem IsBest.nonneg (h : IsBest num S v) (hsame : ∀ y ∈ S, y.msb = num.msb) : v.msb = false := by
  obtain ⟨y, hy, rfl⟩ := h.attained
  rw [BitVec.msb_xor, hsame y hy, Bool.xor_self]

/-- one number -/
theorem maxLoop_cons (hs : Stores trie S) (num : BitVec 32) (nums : List (BitVec 32)) (m : BitVec 32) :
    ∃ v, IsBest num (Insert.insert num S) v ∧ maxLoop (num :: nums) trie m = maxLoop nums (insert trie num) (max m v) := by
  obtain ⟨v, hfused, -, hbest⟩ := insertAndGetMaxXOR_spec hs num
  exact ⟨v, hbest, by rw [maxLoop, hfused, Option.bind_some]⟩

/-! ### Numbers of one sign -/

/-- the largest XOR of two numbers of the set, 0 if there are none -/
structure Greatest (S : Set (BitVec 32)) (r : BitVec 32) : Prop where
  nonneg : r.msb = false
  bound : ∀ x ∈ S, ∀ y ∈ S, (x ^^^ y).toNat ≤ r.toNat
  attained : r = 0#32 ∨ ∃ x ∈ S, ∃ y ∈ S, r = x ^^^ y

theorem greatest_empty : Greatest ∅ 0#32 := ⟨rfl, fun _ hx => absurd hx (Set.notMem_empty _), Or.inl rfl⟩

theorem Greatest.unique {r r' : BitVec 32} (h : Greatest S r) (h' : Greatest S r') : r = r' := by
  have hle : ∀ {r r'}, Greatest S r → Greatest S r' → r.toNat ≤ r'.toNat := by
    intro r r' h h'
    rcases h.attained with rfl | ⟨x, hx, y, hy, rfl⟩
    · exact Nat.zero_le _
    · exact h'.bound x hx y hy
  exact BitVec.eq_of_toNat_eq (le_antisymm (hle h h') (hle h' h))

theorem Greatest.insert (h : Greatest S m) (hv : IsBest num (Insert.insert num S) v) (hpos : v.msb = false) :
    Greatest (Insert.insert num S) (max m v) := by
  have hmono : ∀ x ∈ S, x ∈ Insert.insert num S := fun x hx => Set.mem_insert_of_mem num hx
  have hnum : num ∈ Insert.insert num S := Set.mem_insert num S
  rw [max_nonneg h.nonneg hpos]
  refine ⟨?_, fun x hx y hy => ?_, ?_⟩
  · split_ifs
    · exact hpos
    · exact h.nonneg
  · have hboth : (x ^^^ y).toNat ≤ m.toNat ∨ (x ^^^ y).toNat ≤ v.toNat := by
      rcases hx with rfl | hxS
      · exact Or.inr (hv.largest y hy)
      · rcases hy with rfl | hyS
        · right
          rw [BitVec.xor_comm]
          exact hv.largest x (hmono x hxS)
        · exact Or.inl (h.bound x hxS y hyS)
    split_ifs <;> omega
  · split_ifs
    · obtain ⟨y, hy, hvy⟩ := hv.attained
      exact Or.inr ⟨num, hnum, y, hy, hvy⟩
    · rcases h.attained with hzero | ⟨x, hx, y, hy, hm⟩
      · exact Or.inl hzero
      · exact Or.inr ⟨x, hmono x hx, y, hmono y hy, hm⟩

/-- the loop keeps the largest XOR while all numbers have one sign -/
theorem maxLoop_oneSign {sign : Bool} (nums : List (BitVec 32)) (hs : Stores trie S) (h : Greatest S m)
    (hS : ∀ x ∈ S, x.msb = sign) (hnums : ∀ x ∈ nums, x.msb = sign) :
    ∃ r, maxLoop nums trie m = some r ∧ Greatest (S ∪ {x | x ∈ nums}) r := by
  induction nums generalizing trie S m with
  | nil => exact ⟨m, rfl, by simpa using h⟩
  | cons num nums ih =>
    obtain ⟨v, hbest, hloop⟩ := maxLoop_cons hs num nums m
    have hnum := hnums num List.mem_cons_self
    have hall : ∀ x ∈ Insert.insert num S, x.msb = sign := by
      intro x hx
      rcases hx with rfl | hx
      · exact hnum
      · exact hS x hx
    have hpos : v.msb = false := hbest.nonneg fun y hy => (hall y hy).trans hnum.symm
    obtain ⟨r, hr, hgreatest⟩ := ih (hs.insert num) (h.insert hbest hpos) hall
      fun x hx => hnums x (List.mem_cons_of_mem num hx)
    refine ⟨r, hloop.trans hr, ?_⟩
    have hset : S ∪ {x | x ∈ num :: nums} = Insert.insert num S ∪ {x | x ∈ nums} := by
      ext x
      simp only [Set.mem_union, Set.mem_ofPred_eq, List.mem_cons, Set.mem_insert_iff]
      tauto
    rwa [hset]

theorem findMaximumXOR_oneSign {sign : Bool} {nums : List (BitVec 32)} (h : ∀ x ∈ nums, x.msb = sign) :
    ∃ r, findMaximumXOR nums = some r ∧ Greatest {x | x ∈ nums} r := by
  obtain ⟨r, hr, hgreatest⟩ := maxLoop_oneSign nums stores_empty greatest_empty
    (fun x hx => absurd hx (Set.notMem_empty x)) h
  exact ⟨r, hr, by rwa [Set.empty_union] at hgreatest⟩

/-- **The largest XOR.** For numbers that are not negative, `findMaximumXOR` returns the largest XOR of two of them, 0 for none,
and no null pointer is dereferenced. -/
theorem findMaximumXOR_greatest (nums : List (BitVec 32)) (h : ∀ x ∈ nums, 0 ≤ x.toInt) :
    ∃ r, findMaximumXOR nums = some r ∧ (nums = [] → r = 0#32) ∧
      (nums ≠ [] → IsGreatest {v | ∃ x ∈ nums, ∃ y ∈ nums, v = (x ^^^ y).toInt} r.toInt) := by
  have hsign : ∀ x ∈ nums, x.msb = false := fun x hx => toInt_nonneg_iff.1 (h x hx)
  obtain ⟨r, hr, hgreatest⟩ := findMaximumXOR_oneSign hsign
  refine ⟨r, hr, fun hnil => ?_, fun hne => ⟨?_, ?_⟩⟩
  · rcases hgreatest.attained with hzero | ⟨x, hx, -⟩
    · exact hzero
    · rw [hnil] at hx
      cases hx
  · rcases hgreatest.attained with hzero | ⟨x, hx, y, hy, hxy⟩
    · obtain ⟨x, hx⟩ := List.exists_mem_of_ne_nil nums hne
      exact ⟨x, hx, x, hx, by rw [hzero, BitVec.xor_self]⟩
    · exact ⟨x, hx, y, hy, by rw [hxy]⟩
  · intro v hv
    obtain ⟨x, hx, y, hy, rfl⟩ := hv
    have hxy : (x ^^^ y).msb = false := by rw [BitVec.msb_xor, hsign x hx, hsign y hy]; rfl
    rw [toInt_of_nonneg hxy, toInt_of_nonneg hgreatest.nonneg]
    exact_mod_cast hgreatest.bound x hx y hy

/-- the numbers of `main` -/
theorem findMaximumXOR_greatest_main :
    findMaximumXOR [3, 10, 5, 25, 2, 8] = some 28#32 ∧
      IsGreatest {v : ℤ | ∃ x ∈ [3, 10, 5, 25, 2, 8], ∃ y ∈ [3, 10, 5, 25, 2, 8], v = (x ^^^ y : BitVec 32).toInt} 28 := by
  have hnonneg : ∀ x ∈ ([3, 10, 5, 25, 2, 8] : List (BitVec 32)), 0 ≤ x.toInt := by
    intro x hx
    simp only [List.mem_cons, List.not_mem_nil, or_false] at hx
    rcases hx with rfl | rfl | rfl | rfl | rfl | rfl <;> decide
  obtain ⟨r, hr, -, hgreatest⟩ := findMaximumXOR_greatest [3, 10, 5, 25, 2, 8] hnonneg
  have hmain : findMaximumXOR [3, 10, 5, 25, 2, 8] = some 28#32 := by decide +kernel
  have hint : r.toInt = 28 := by
    rw [Option.some.inj (hr.symm.trans hmain)]
    rfl
  rw [hint] at hgreatest
  exact ⟨hmain, hgreatest (List.cons_ne_nil _ _)⟩

/-! ### Numbers of both signs -/

/-- once there are numbers of both signs in the trie every result is negative -/
theorem maxLoop_bothSigns (nums : List (BitVec 32)) (hs : Stores trie S) (hm : m.msb = false)
    (hS : ∀ sign, ∃ y ∈ S, y.msb = sign) : maxLoop nums trie m = some m := by
  induction nums generalizing trie S with
  | nil => rfl
  | cons num nums ih =>
    obtain ⟨v, hbest, hloop⟩ := maxLoop_cons hs num nums m
    have hneg : v.msb = true := by
      obtain ⟨y, hy, hsign⟩ := hS (!num.msb)
      refine hbest.neg ⟨y, Set.mem_insert_of_mem num hy, ?_⟩
      rw [hsign]
      simp
    rw [hloop, max_neg hm hneg]
    refine ih (hs.insert num) fun sign => ?_
    obtain ⟨y, hy, hsign⟩ := hS sign
    exact ⟨y, Set.mem_insert_of_mem num hy, hsign⟩

/-- the first number of the other sign ends the search -/
theorem maxLoop_otherSign (hs : Stores trie S) (hm : m.msb = false) (hother : ∃ y ∈ S, y.msb ≠ num.msb)
    (nums : List (BitVec 32)) : maxLoop (num :: nums) trie m = some m := by
  obtain ⟨v, hbest, hloop⟩ := maxLoop_cons hs num nums m
  obtain ⟨y, hy, hne⟩ := hother
  rw [hloop, max_neg hm (hbest.neg ⟨y, Set.mem_insert_of_mem num hy, hne⟩)]
  refine maxLoop_bothSigns nums (hs.insert num) hm fun sign => ?_
  by_cases hsign : num.msb = sign
  · exact ⟨num, Set.mem_insert num S, hsign⟩
  · refine ⟨y, Set.mem_insert_of_mem num hy, ?_⟩
    cases hn : num.msb <;> cases hy : y.msb <;> cases sign <;> simp_all

/-- the first number alone gives 0 -/
theorem maxLoop_first (hs : Stores trie ∅) (num : BitVec 32) (nums : List (BitVec 32)) :
    maxLoop (num :: nums) trie 0#32 = maxLoop nums (insert trie num) 0#32 := by
  obtain ⟨v, hbest, hloop⟩ := maxLoop_cons hs num nums 0#32
  obtain ⟨y, hy, rfl⟩ := hbest.attained
  obtain rfl : y = num := by simpa using hy
  rw [hloop, BitVec.xor_self]
  rfl

/-- numbers of which no two of one sign differ: nothing but 0 is found -/
theorem maxLoop_twoValues (nums : List (BitVec 32)) (hs : Stores trie S)
    (h : ∀ x ∈ S ∪ {x | x ∈ nums}, ∀ y ∈ S ∪ {x | x ∈ nums}, x.msb = y.msb → x = y) :
    maxLoop nums trie 0#32 = some 0#32 := by
  induction nums generalizing trie S with
  | nil => rfl
  | cons num nums ih =>
    by_cases hother : ∃ y ∈ S, y.msb ≠ num.msb
    · exact maxLoop_otherSign hs rfl hother nums
    · have hnum : num ∈ S ∪ {x | x ∈ num :: nums} := Or.inr List.mem_cons_self
      obtain ⟨v, hbest, hloop⟩ := maxLoop_cons hs num nums 0#32
      obtain ⟨y, hy, rfl⟩ := hbest.attained
      obtain rfl : y = num := by
        rcases hy with rfl | hy
        · rfl
        · exact h y (Or.inl hy) num hnum (by_contra fun hne => hother ⟨y, hy, hne⟩)
      have hzero : max 0#32 (y ^^^ y) = 0#32 := by
        rw [BitVec.xor_self]
        rfl
      have hset : Insert.insert y S ∪ {x | x ∈ nums} = S ∪ {x | x ∈ y :: nums} := by
        ext x
        simp only [Set.mem_union, Set.mem_ofPred_eq, List.mem_cons, Set.mem_insert_iff]
        tauto
      rw [hloop, hzero]
      refine ih (hs.insert y) ?_
      rw [hset]
      exact h

/-- two orders with different results: both of the one sign first, or the other sign in between -/
theorem orders_differ (hxy : x ≠ y) (hsame : x.msb = y.msb) (hother : z.msb ≠ x.msb) (rest : List (BitVec 32)) :
    findMaximumXOR (x :: z :: y :: rest) = some 0#32 ∧ findMaximumXOR (x :: y :: z :: rest) ≠ some 0#32 := by
  have hx : Stores (insert empty x) {x} := by
    have := stores_empty.insert x
    rwa [insert_empty_eq] at this
  constructor
  · rw [findMaximumXOR, maxLoop_first stores_empty]
    exact maxLoop_otherSign hx rfl ⟨x, rfl, hother.symm⟩ _
  · obtain ⟨v, hbest, hloop⟩ := maxLoop_cons hx y (z :: rest) 0#32
    have hpos : v.msb = false := by
      refine hbest.nonneg fun w hw => ?_
      rcases hw with rfl | hw
      · rfl
      · rw [Set.mem_singleton_iff.1 hw, hsame]
    have hlarge : 0 < v.toNat := by
      have hle := hbest.largest x (Set.mem_insert_of_mem y rfl)
      have hne : (y ^^^ x).toNat ≠ 0 := by
        intro hzero
        have : y ^^^ x = 0#32 := BitVec.eq_of_toNat_eq hzero
        exact hxy (BitVec.xor_eq_zero_iff.1 this).symm
      omega
    have hmax : max 0#32 v = v := by
      rw [max_nonneg rfl hpos, if_pos (by simpa using hlarge)]
    rw [findMaximumXOR, maxLoop_first stores_empty, hloop, hmax,
      maxLoop_otherSign (hx.insert y) hpos ⟨x, Set.mem_insert_of_mem y rfl, hother.symm⟩]
    intro heq
    rw [Option.some.inj heq] at hlarge
    cases hlarge

/-- three different numbers of a vector can stand in front -/
theorem perm_front {nums : List (BitVec 32)} (hx : x ∈ nums) (hy : y ∈ nums) (hz : z ∈ nums) (hyx : y ≠ x) (hzx : z ≠ x)
    (hzy : z ≠ y) : ∃ rest, (x :: y :: z :: rest).Perm nums := by
  have hy' : y ∈ nums.erase x := (List.mem_erase_of_ne hyx).2 hy
  have hz' : z ∈ (nums.erase x).erase y := (List.mem_erase_of_ne hzy).2 ((List.mem_erase_of_ne hzx).2 hz)
  refine ⟨((nums.erase x).erase y).erase z, ?_⟩
  have hone : (z :: ((nums.erase x).erase y).erase z).Perm ((nums.erase x).erase y) := (List.perm_cons_erase hz').symm
  have htwo : (y :: (nums.erase x).erase y).Perm (nums.erase x) := (List.perm_cons_erase hy').symm
  exact (((hone.cons y).trans htwo).cons x).trans (List.perm_cons_erase hx).symm

/-- numbers of one sign: the result is a matter of the set -/
theorem order_irrelevant_oneSign {sign : Bool} {nums : List (BitVec 32)} (hsign : ∀ x ∈ nums, x.msb = sign) :
    ∃ r, ∀ nums', nums'.Perm nums → findMaximumXOR nums' = some r := by
  obtain ⟨r, -, hgreatest⟩ := findMaximumXOR_oneSign hsign
  refine ⟨r, fun nums' hp => ?_⟩
  obtain ⟨r', hr', hgreatest'⟩ := findMaximumXOR_oneSign fun x hx => hsign x (hp.mem_iff.1 hx)
  have hset : {x | x ∈ nums'} = {x | x ∈ nums} := Set.ext fun x => hp.mem_iff
  rw [hset] at hgreatest'
  rw [hr', hgreatest'.unique hgreatest]

/-- **When the order is irrelevant.** All orders of a vector give one result exactly if its numbers are all not negative, or all
negative, or no two different ones have the same sign. The query takes the sign bit for the most significant bit, but its results
are compared as signed numbers, so that nothing counts any more after the first change of sign. -/
theorem order_irrelevant_iff (nums : List (BitVec 32)) :
    (∃ r, ∀ nums', nums'.Perm nums → findMaximumXOR nums' = some r) ↔
      (∀ x ∈ nums, 0 ≤ x.toInt) ∨ (∀ x ∈ nums, x.toInt < 0) ∨
        ∀ x ∈ nums, ∀ y ∈ nums, (x.toInt < 0 ↔ y.toInt < 0) → x = y := by
  simp only [toInt_nonneg_iff, toInt_neg_iff, ← Bool.eq_iff_iff]
  constructor
  · intro h
    obtain ⟨r, hr⟩ := h
    by_contra hnot
    push Not at hnot
    obtain ⟨⟨a, ha, haneg⟩, ⟨b, hb, hbpos⟩, x, hx, y, hy, hsame, hxy⟩ := hnot
    obtain ⟨z, hz, hother⟩ : ∃ z ∈ nums, z.msb ≠ x.msb := by
      by_cases hsign : a.msb = x.msb
      · refine ⟨b, hb, fun heq => ?_⟩
        rw [← heq] at hsign
        cases hab : a.msb <;> simp_all
      · exact ⟨a, ha, hsign⟩
    have hzx : z ≠ x := fun heq => hother (congrArg BitVec.msb heq)
    have hzy : z ≠ y := fun heq => hother ((congrArg BitVec.msb heq).trans hsame.symm)
    obtain ⟨rest, hperm⟩ := perm_front hx hy hz hxy.symm hzx hzy
    obtain ⟨hzero, hnonzero⟩ := orders_differ hxy hsame hother rest
    have hfirst := hr _ hperm
    have hsecond := hr _ (((List.Perm.swap y z _).cons x).trans hperm)
    rw [hzero] at hsecond
    exact hnonzero (hfirst.trans hsecond.symm)
  · intro h
    rcases h with hpos | hneg | htwo
    · exact order_irrelevant_oneSign hpos
    · exact order_irrelevant_oneSign hneg
    · refine ⟨0#32, fun nums' hp => maxLoop_twoValues nums' stores_empty fun x hx y hy => ?_⟩
      rw [Set.empty_union] at hx hy
      exact htwo x (hp.mem_iff.1 hx) y (hp.mem_iff.1 hy)

/-- **The order matters.** Only what comes before the first change of sign counts. -/
theorem order_matters : ([1, -1, 2] : List (BitVec 32)).Perm [1, 2, -1] ∧
    findMaximumXOR [1, 2, -1] = some 3#32 ∧ findMaximumXOR [1, -1, 2] = some 0#32 :=
  ⟨(List.Perm.swap 2 (-1) []).cons 1, by decide +kernel, by decide +kernel⟩

end InterviewPrep.MaxXor
