/-
Merging two lists in place: pureStorage/mergeLinkedList.cpp.

`mergeTwoListsRecursive` sets the link of a node when the rest has been merged, `mergeTwoLists` when the next node is known; it
starts with a node on the stack, at an address where nothing else is. The calls and loops are made for at most `fuel` rounds; one
that has not ended by then, and a pointer that is dereferenced without a node there, are `none`.

- `Rewired`: the nodes form this list now, and nothing else has changed; `Rewired.cons` and `Rewired.cons_before` put a node in
  front, after the rest is done and before;
- `recursive_rewired` and `mergeTwoLists_rewired`: both get to the merge of the two lists, which takes from the second on a tie;
- `merges_agree`: the same heap and the same list, with all nodes of both lists in their order.
-/
import InterviewPrep.Core.HeapChain
import InterviewPrep.Core.StableMerge

namespace InterviewPrep.LinkedList.Merge

open StableMerge (merge merge_nil_left merge_nil_right merge_of_lt merge_of_le not_mem_merge)

/-! ## Model -/

structure ListNode (Addr : Type) where
  val : ℤ
  next : Option Addr
deriving DecidableEq

abbrev Heap (Addr : Type) := Addr → Option (ListNode Addr)

variable {Addr : Type} [DecidableEq Addr]

/-- `p->next = v` -/
def setNext (h : Heap Addr) (p : Addr) (v : Option Addr) : Option (Heap Addr) :=
  (h p).map fun n => Function.update h p (some { n with next := v })

def mergeTwoListsRecursive : ℕ → Heap Addr → Option Addr → Option Addr → Option (Heap Addr × Option Addr)
  | 0, _, _, _ => none
  | _ + 1, h, none, l2 => some (h, l2)
  | _ + 1, h, some l1, none => some (h, some l1)
  | fuel + 1, h, some l1, some l2 => do
    let n1 ← h l1
    let n2 ← h l2
    if n1.val < n2.val then do
      let rest ← mergeTwoListsRecursive fuel h n1.next (some l2)
      let h ← setNext rest.1 l1 rest.2
      some (h, some l1)
    else do
      let rest ← mergeTwoListsRecursive fuel h (some l1) n2.next
      let h ← setNext rest.1 l2 rest.2
      some (h, some l2)

/-- `while (l1 != nullptr && l2 != nullptr)`; the node that is linked is the next one to set a link in -/
def mergeLoop : ℕ → Heap Addr → Addr → Option Addr → Option Addr → Option (Heap Addr × Addr × Option Addr × Option Addr)
  | 0, _, _, _, _ => none
  | _ + 1, h, next, none, l2 => some (h, next, none, l2)
  | _ + 1, h, next, some l1, none => some (h, next, some l1, none)
  | fuel + 1, h, next, some l1, some l2 => do
    let n1 ← h l1
    let n2 ← h l2
    if n1.val < n2.val then do
      let h ← setNext h next (some l1)
      let n1 ← h l1
      let last ← h next
      let next ← last.next
      mergeLoop fuel h next n1.next (some l2)
    else do
      let h ← setNext h next (some l2)
      let n2 ← h l2
      let last ← h next
      let next ← last.next
      mergeLoop fuel h next (some l1) n2.next

/-- `dummy` is the address of the node on the stack, which is there until the function returns -/
def mergeTwoLists (fuel : ℕ) (h : Heap Addr) (dummy : Addr) (l1 l2 : Option Addr) : Option (Heap Addr × Option Addr) := do
  let h := Function.update h dummy (some ⟨0, none⟩)
  let loop ← mergeLoop fuel h dummy l1 l2
  let h ← setNext loop.1 loop.2.1 (if loop.2.2.1 ≠ none then loop.2.2.1 else loop.2.2.2)
  let first ← h dummy
  some (Function.update h dummy none, first.next)

/-- the `next` fields -/
def link (h : Heap Addr) (a : Addr) : Option (Option Addr) := (h a).map ListNode.next

/-- the `val` field -/
def value (h : Heap Addr) (a : Addr) : ℤ := ((h a).map ListNode.val).getD 0

/-! ## One link after the other -/

/-- the nodes `l` form a list in `h'`, and `h'` is `h` but for their links -/
structure Rewired (h h' : Heap Addr) (l : List Addr) : Prop where
  chain : HeapChain (link h') l.head? l
  vals : ∀ a, (h' a).map ListNode.val = (h a).map ListNode.val
  frame : ∀ a, a ∉ l → h' a = h a

variable {h h' h'' : Heap Addr} {l l1 l2 : List Addr} {p q : Option Addr} {a c : Addr} {m : ListNode Addr}

theorem link_update_of_ne (n : ListNode Addr) (hne : a ≠ c) : link (Function.update h c (some n)) a = link h a := by
  rw [link, Function.update_of_ne hne, link]

theorem link_update_self (n : ListNode Addr) : link (Function.update h c (some n)) c = some n.next := by
  rw [link, Function.update_self, Option.map_some]

omit [DecidableEq Addr] in
theorem rewired_of_chain (hchain : HeapChain (link h) p l) : Rewired h h l :=
  ⟨hchain.head_eq ▸ hchain, fun _ => rfl, fun _ _ => rfl⟩

/-- the rest is done, and `c` is put in front of it -/
theorem Rewired.cons (hr : Rewired h h' l) (hc : h c = some m) (hnot : c ∉ l) :
    ∃ h'', setNext h' c l.head? = some h'' ∧ Rewired h h'' (c :: l) := by
  have hc' : h' c = some m := (hr.frame c hnot).trans hc
  refine ⟨Function.update h' c (some { m with next := l.head? }), ?_, ⟨?_, fun a => ?_, fun a ha => ?_⟩⟩
  · rw [setNext, hc', Option.map_some]
  · refine ⟨rfl, l.head?, link_update_self _, hr.chain.congr fun a ha => link_update_of_ne _ ?_⟩
    exact fun heq => hnot (heq ▸ ha)
  · rcases eq_or_ne a c with rfl | hne
    · rw [Function.update_self, hc]
      rfl
    · rw [Function.update_of_ne hne, hr.vals]
  · rw [List.mem_cons, not_or] at ha
    rw [Function.update_of_ne ha.1, hr.frame a ha.2]

/-- `c` is put in front, and then the rest is done -/
theorem Rewired.cons_before (hc : h c = some m) (hnot : c ∉ l)
    (hr : Rewired (Function.update h c (some { m with next := l.head? })) h' l) : Rewired h h' (c :: l) := by
  have hc' := hr.frame c hnot
  rw [Function.update_self] at hc'
  refine ⟨⟨rfl, l.head?, ?_, hr.chain⟩, fun a => ?_, fun a ha => ?_⟩
  · rw [link, hc', Option.map_some]
  · rw [hr.vals]
    rcases eq_or_ne a c with rfl | hne
    · rw [Function.update_self, hc]
      rfl
    · rw [Function.update_of_ne hne]
  · rw [List.mem_cons, not_or] at ha
    rw [hr.frame a ha.2, Function.update_of_ne ha.1]

omit [DecidableEq Addr] in
theorem eq_of_fields {n n' : Option (ListNode Addr)} (hval : n.map ListNode.val = n'.map ListNode.val)
    (hnext : n.map ListNode.next = n'.map ListNode.next) : n = n' := by
  cases n with
  | none => exact (Option.map_eq_none_iff.1 hval.symm).symm
  | some n =>
    cases n' with
    | none => cases hval
    | some n' =>
      obtain ⟨v, next⟩ := n
      obtain ⟨v', next'⟩ := n'
      obtain rfl : v = v' := Option.some.inj hval
      obtain rfl : next = next' := Option.some.inj hnext
      rfl

omit [DecidableEq Addr] in
/-- a heap is what its links and its values are -/
theorem Rewired.unique (hr : Rewired h h' l) (hr' : Rewired h h'' l) : h' = h'' := by
  funext a
  by_cases ha : a ∈ l
  · have hlink := hr'.chain.link_eq hr.chain ha
    exact eq_of_fields ((hr.vals a).trans (hr'.vals a).symm) hlink
  · rw [hr.frame a ha, hr'.frame a ha]

omit [DecidableEq Addr] in
/-- the node in front of a list -/
theorem exists_node (hchain : HeapChain (link h) p (a :: l)) :
    ∃ m, p = some a ∧ h a = some m ∧ value h a = m.val ∧ HeapChain (link h) m.next l := by
  obtain ⟨hp, n, hn, hrest⟩ := hchain
  obtain ⟨m, hm, rfl⟩ := Option.map_eq_some_iff.1 hn
  refine ⟨m, hp, hm, ?_, hrest⟩
  rw [value, hm, Option.map_some, Option.getD_some]

/-! ## The recursive version -/

section Lists

variable {xs ys : List Addr} {fuel : ℕ} {b : Addr}

theorem recursive_rewired (h1 : HeapChain (link h) p xs) (h2 : HeapChain (link h) q ys) (hdisj : ∀ c ∈ xs, c ∉ ys)
    (hfuel : xs.length + ys.length < fuel) :
    ∃ h', mergeTwoListsRecursive fuel h p q = some (h', (merge (value h) xs ys).head?) ∧ Rewired h h' (merge (value h) xs ys) := by
  induction fuel generalizing p q xs ys with
  | zero => omega
  | succ fuel ih =>
    cases xs with
    | nil =>
      obtain rfl : p = none := h1
      rw [merge_nil_left, ← h2.head_eq]
      exact ⟨h, rfl, rewired_of_chain h2⟩
    | cons a xs =>
      cases ys with
      | nil =>
        obtain rfl : q = none := h2
        rw [merge_nil_right, ← h1.head_eq]
        obtain ⟨-, rfl, -⟩ := exists_node h1
        exact ⟨h, rfl, rewired_of_chain h1⟩
      | cons b ys =>
        obtain ⟨n1, rfl, hn1, hvalue1, hrest1⟩ := exists_node h1
        obtain ⟨n2, rfl, hn2, hvalue2, hrest2⟩ := exists_node h2
        rw [List.length_cons, List.length_cons] at hfuel
        rw [mergeTwoListsRecursive, hn1, hn2, Option.bind_eq_bind, Option.bind_some, Option.bind_some]
        by_cases hlt : n1.val < n2.val
        · obtain ⟨h', hres, hr⟩ := ih hrest1 h2 (List.forall_mem_cons.1 hdisj).2 (by rw [List.length_cons]; omega)
          obtain ⟨h'', hset, hr'⟩ := hr.cons hn1
            (not_mem_merge (List.nodup_cons.1 h1.nodup).1 (List.forall_mem_cons.1 hdisj).1)
          rw [merge_of_lt (by omega), if_pos hlt, hres, Option.bind_eq_bind, Option.bind_some, hset, Option.bind_eq_bind,
            Option.bind_some]
          exact ⟨h'', rfl, hr'⟩
        · obtain ⟨h', hres, hr⟩ := ih h1 hrest2 (fun c hc hmem => hdisj c hc (List.mem_cons_of_mem b hmem))
            (by rw [List.length_cons]; omega)
          obtain ⟨h'', hset, hr'⟩ := hr.cons hn2
            (not_mem_merge (fun hmem => hdisj b hmem List.mem_cons_self) (List.nodup_cons.1 h2.nodup).1)
          rw [merge_of_le (by omega), if_neg hlt, hres, Option.bind_eq_bind, Option.bind_some, hset, Option.bind_eq_bind,
            Option.bind_some]
          exact ⟨h'', rfl, hr'⟩

/-! ## The loop -/

theorem value_update (hc : h c = some m) (p : Option Addr) :
    value (Function.update h c (some { m with next := p })) = value h := by
  funext a
  rcases eq_or_ne a c with rfl | hne
  · rw [value, value, Function.update_self, hc]
    rfl
  · rw [value, value, Function.update_of_ne hne]

/-- one round: `a` is linked, and the loop goes on from there -/
theorem relink (hc : h c = some m) (hne : a ≠ c) :
    ∃ h' n, setNext h c (some a) = some h' ∧ h' = Function.update h c (some { m with next := some a }) ∧ h' c = some n ∧
      n.next = some a ∧ h' a = h a ∧ value h' = value h ∧ ∀ b, b ≠ c → link h' b = link h b := by
  refine ⟨Function.update h c (some { m with next := some a }), { m with next := some a }, ?_, rfl, Function.update_self ..,
    rfl, Function.update_of_ne hne .., value_update hc _, fun b hb => link_update_of_ne _ hb⟩
  rw [setNext, hc, Option.map_some]

omit [DecidableEq Addr] in
theorem chain_relink (hlink : ∀ b, b ≠ c → link h' b = link h b) (hchain : HeapChain (link h) p l) (hnot : c ∉ l) :
    HeapChain (link h') p l :=
  hchain.congr fun d hd => hlink d fun heq => hnot (heq ▸ hd)

/-- from the node `c` on, which is there -/
theorem mergeLoop_rewired (hc : h c = some m) (h1 : HeapChain (link h) p xs) (h2 : HeapChain (link h) q ys)
    (hdisj : ∀ c ∈ xs, c ∉ ys) (hcx : c ∉ xs) (hcy : c ∉ ys) (hfuel : xs.length + ys.length < fuel) :
    ∃ loop h', mergeLoop fuel h c p q = some loop ∧
      setNext loop.1 loop.2.1 (if loop.2.2.1 ≠ none then loop.2.2.1 else loop.2.2.2) = some h' ∧
      Rewired h h' (c :: merge (value h) xs ys) := by
  induction fuel generalizing h c m p q xs ys with
  | zero => omega
  | succ fuel ih =>
    cases xs with
    | nil =>
      obtain rfl : p = none := h1
      obtain ⟨h', hset, hr⟩ := (rewired_of_chain h2).cons hc hcy
      rw [merge_nil_left]
      rw [← h2.head_eq] at hset
      exact ⟨(h, c, none, q), h', rfl, hset, hr⟩
    | cons a xs =>
      obtain ⟨n1, rfl, hn1, hvalue1, hrest1⟩ := exists_node h1
      cases ys with
      | nil =>
        obtain rfl : q = none := h2
        obtain ⟨h', hset, hr⟩ := (rewired_of_chain h1).cons hc hcx
        rw [merge_nil_right]
        exact ⟨(h, c, some a, none), h', rfl, hset, hr⟩
      | cons b ys =>
        obtain ⟨n2, rfl, hn2, hvalue2, hrest2⟩ := exists_node h2
        rw [List.length_cons, List.length_cons] at hfuel
        rw [mergeLoop, hn1, hn2, Option.bind_eq_bind, Option.bind_some, Option.bind_some]
        by_cases hlt : n1.val < n2.val
        · have hnot := List.not_mem_of_not_mem_cons hcx
          obtain ⟨h₁, n, hset, hupdate, hlast, hnext, hsame, hvalue, hlink⟩ := relink hc (List.ne_of_not_mem_cons hcx).symm
          rw [merge_of_lt (by omega), if_pos hlt, hset, Option.bind_eq_bind, Option.bind_some, hsame, hn1, Option.bind_some, hlast,
            Option.bind_some, hnext, Option.bind_eq_bind, Option.bind_some]
          obtain ⟨loop, h', hloop, hend, hr⟩ := ih (hsame.trans hn1) (chain_relink hlink hrest1 hnot) (chain_relink hlink h2 hcy)
            (List.forall_mem_cons.1 hdisj).2 (List.nodup_cons.1 h1.nodup).1 (List.forall_mem_cons.1 hdisj).1
            (by rw [List.length_cons]; omega)
          rw [hvalue, hupdate] at hr
          exact ⟨loop, h', hloop, hend, hr.cons_before hc
            (List.not_mem_cons_of_ne_of_not_mem (List.ne_of_not_mem_cons hcx) (not_mem_merge hnot hcy))⟩
        · have hnot := List.not_mem_of_not_mem_cons hcy
          obtain ⟨h₁, n, hset, hupdate, hlast, hnext, hsame, hvalue, hlink⟩ := relink hc (List.ne_of_not_mem_cons hcy).symm
          rw [merge_of_le (by omega), if_neg hlt, hset, Option.bind_eq_bind, Option.bind_some, hsame, hn2, Option.bind_some, hlast,
            Option.bind_some, hnext, Option.bind_eq_bind, Option.bind_some]
          obtain ⟨loop, h', hloop, hend, hr⟩ := ih (hsame.trans hn2) (chain_relink hlink h1 hcx) (chain_relink hlink hrest2 hnot)
            (fun d hd hmem => hdisj d hd (List.mem_cons_of_mem b hmem)) (fun hmem => hdisj b hmem List.mem_cons_self)
            (List.nodup_cons.1 h2.nodup).1 (by rw [List.length_cons]; omega)
          rw [hvalue, hupdate] at hr
          exact ⟨loop, h', hloop, hend, hr.cons_before hc
            (List.not_mem_cons_of_ne_of_not_mem (List.ne_of_not_mem_cons hcy) (not_mem_merge hcx hnot))⟩

/-- the node on the stack comes and goes -/
theorem mergeTwoLists_rewired {dummy : Addr} (hdummy : h dummy = none) (h1 : HeapChain (link h) p xs)
    (h2 : HeapChain (link h) q ys) (hdisj : ∀ c ∈ xs, c ∉ ys) (hfuel : xs.length + ys.length < fuel) :
    ∃ h', mergeTwoLists fuel h dummy p q = some (h', (merge (value h) xs ys).head?) ∧ Rewired h h' (merge (value h) xs ys) := by
  have hfree : ∀ {p l}, HeapChain (link h) p l → dummy ∉ l := by
    intro p l hchain hmem
    have hsome := hchain.allocated hmem
    rw [link, hdummy] at hsome
    cases hsome
  have hnot : dummy ∉ merge (value h) xs ys := not_mem_merge (hfree h1) (hfree h2)
  have hvalue : value (Function.update h dummy (some ⟨0, none⟩)) = value h := by
    funext a
    rcases eq_or_ne a dummy with rfl | hne
    · rw [value, value, Function.update_self, hdummy]
      rfl
    · rw [value, value, Function.update_of_ne hne]
  obtain ⟨loop, h', hloop, hend, hr⟩ := mergeLoop_rewired (Function.update_self dummy _ h)
    (h1.congr fun a ha => link_update_of_ne _ fun heq => hfree h1 (heq ▸ ha))
    (h2.congr fun a ha => link_update_of_ne _ fun heq => hfree h2 (heq ▸ ha)) hdisj (hfree h1) (hfree h2) hfuel
  rw [hvalue] at hr
  obtain ⟨-, n, hn, hrest⟩ := hr.chain
  obtain ⟨first, hfirst, rfl⟩ := Option.map_eq_some_iff.1 hn
  have hframe : ∀ a, a ≠ dummy → Function.update h' dummy none a = h' a := fun a hne => Function.update_of_ne hne ..
  refine ⟨Function.update h' dummy none, ?_, ⟨?_, fun a => ?_, fun a ha => ?_⟩⟩
  · rw [mergeTwoLists, Option.bind_eq_bind, hloop, Option.bind_some, hend, Option.bind_eq_bind, Option.bind_some, hfirst,
      Option.bind_eq_bind, Option.bind_some, hrest.head_eq]
  · rw [← hrest.head_eq]
    refine hrest.congr fun a ha => ?_
    rw [link, hframe a fun heq => hnot (heq ▸ ha), link]
  · rcases eq_or_ne a dummy with rfl | hne
    · rw [Function.update_self, hdummy]
    · rw [hframe a hne, hr.vals, Function.update_of_ne hne]
  · rcases eq_or_ne a dummy with rfl | hne
    · rw [Function.update_self, hdummy]
    · rw [hframe a hne, hr.frame a (by rw [List.mem_cons, not_or]; exact ⟨hne, ha⟩), Function.update_of_ne hne]

end Lists

/-! ## Agreement -/

/-- **Two lists in one heap.** Both versions leave the same heap and return the same list. It has every node of both lists, in
their order, and nothing but links has changed; if the lists are sorted it is too, and on a tie the node of `l2` is first. -/
theorem merges_agree (h : Heap Addr) (dummy : Addr) (l1 l2 : Option Addr) (xs ys : List Addr) (hdummy : h dummy = none)
    (h1 : HeapChain (link h) l1 xs) (h2 : HeapChain (link h) l2 ys) (hdisj : ∀ a ∈ xs, a ∉ ys) :
    ∃ nodes h', (∃ rounds, ∀ fuel, rounds ≤ fuel →
        mergeTwoListsRecursive fuel h l1 l2 = some (h', nodes.head?) ∧ mergeTwoLists fuel h dummy l1 l2 = some (h', nodes.head?)) ∧
      HeapChain (link h') nodes.head? nodes ∧
      (nodes.Nodup ∧ nodes.Perm (xs ++ ys) ∧ xs.Sublist nodes ∧ ys.Sublist nodes) ∧
      ((∀ a, (h' a).map ListNode.val = (h a).map ListNode.val) ∧ ∀ a, a ∉ nodes → h' a = h a) ∧
      ((xs.Pairwise fun a a' => value h a ≤ value h a') → (ys.Pairwise fun b b' => value h b ≤ value h b') →
        (nodes.Pairwise fun a b => value h a ≤ value h b) ∧
          ∀ a ∈ xs, ∀ b ∈ ys, value h b = value h a → [b, a].Sublist nodes) := by
  obtain ⟨h', -, hr⟩ := recursive_rewired h1 h2 hdisj (Nat.lt_succ_self _)
  refine ⟨merge (value h) xs ys, h', ⟨xs.length + ys.length + 1, fun fuel hfuel => ⟨?_, ?_⟩⟩, hr.chain,
    ⟨hr.chain.nodup, StableMerge.merge_perm _ xs ys, StableMerge.sublist_merge_left xs ys,
      StableMerge.sublist_merge_right xs ys⟩, ⟨hr.vals, hr.frame⟩,
    fun hxs hys => ⟨StableMerge.merge_sorted hxs hys, fun a ha b hb heq => StableMerge.pair_sublist_merge hys ha hb heq⟩⟩
  · obtain ⟨h'', hres, hr'⟩ := recursive_rewired h1 h2 hdisj hfuel
    rw [hres, hr.unique hr']
  · obtain ⟨h'', hres, hr'⟩ := mergeTwoLists_rewired hdummy h1 h2 hdisj hfuel
    rw [hres, hr.unique hr']

theorem merges_tie :
    let h : Heap ℕ := fun a => ([⟨1, some 1⟩, ⟨3, none⟩, ⟨1, some 3⟩, ⟨4, none⟩] : List (ListNode ℕ))[a]?
    ∃ nodes h', (∃ rounds, ∀ fuel, rounds ≤ fuel →
        mergeTwoListsRecursive fuel h (some 0) (some 2) = some (h', nodes.head?) ∧
          mergeTwoLists fuel h 4 (some 0) (some 2) = some (h', nodes.head?)) ∧ [2, 0].Sublist nodes := by
  intro h
  obtain ⟨nodes, h', hrun, -, -, -, hsorted⟩ := merges_agree h 4 (some 0) (some 2) [0, 1] [2, 3] rfl
    ⟨rfl, some 1, rfl, rfl, none, rfl, rfl⟩ ⟨rfl, some 3, rfl, rfl, none, rfl, rfl⟩ (by decide)
  exact ⟨nodes, h', hrun, (hsorted (by decide) (by decide)).2 0 (by decide) 2 (by decide) rfl⟩

end InterviewPrep.LinkedList.Merge
