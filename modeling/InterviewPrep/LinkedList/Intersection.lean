/-
The first common node of two lists: packetHandler/intersectionOfLinkedLists.cpp.

A heap is its `next` fields. The loops are made for at most `fuel` rounds; a loop that has not ended by then, and a null pointer
that is dereferenced, are `none`. So is the overflow of an `int`, which `lenA` and `lenB` are.

Two lists in one heap are apart up to a common end (`HeapChain.exists_shared`), so the first node of the one that is in the other
starts that end. The pointers of `getIntersectionNode` go through the one list and then the other: when they get to the common
end for the second time, both have made the steps of both lists' own nodes and of the common end once (`exchanged_apart`).
- `intersections_agree`: all four functions end, with the first common node; the one that counts the nodes, for lists of
  fewer than 2 ^ 31 nodes.
- `count_overflows`: a list of 2 ^ 31 nodes is not counted.
-/
import InterviewPrep.Core.HeapChain
import InterviewPrep.Core.Numeral

namespace InterviewPrep.LinkedList.Intersection

open Numeral (signed signed_of_small signed_of_big)

variable {Addr : Type}

/-! ## Model -/

section Model

variable [DecidableEq Addr] (next : Addr → Option Addr)

/-- `p ? p->next : other` -/
def advance (other : Option Addr) : Option Addr → Option Addr
  | some a => next a
  | none => other

/-- `while (ptrA != ptrB)` -/
def switching (headA headB : Option Addr) : ℕ → Option Addr → Option Addr → Option (Option Addr)
  | 0, _, _ => none
  | fuel + 1, ptrA, ptrB =>
    if ptrA ≠ ptrB then switching headA headB fuel (advance next headB ptrA) (advance next headA ptrB) else some ptrA

def getIntersectionNode (fuel : ℕ) (headA headB : Option Addr) : Option (Option Addr) :=
  if headA = none ∨ headB = none then some none else switching next headA headB fuel headA headB

/-- `for (currA = headA; currA != nullptr; currA = currA->next)` with a test that returns `currA` -/
def firstThat (test : Addr → Option Bool) : ℕ → Option Addr → Option (Option Addr)
  | 0, _ => none
  | _ + 1, none => some none
  | fuel + 1, some currA => do
    if ← test currA then some (some currA) else firstThat test fuel (next currA)

/-- the inner loop of `getIntersectionNodeBruteForce` -/
def isIn (currA : Addr) : ℕ → Option Addr → Option Bool
  | 0, _ => none
  | _ + 1, none => some false
  | fuel + 1, some currB => if currA = currB then some true else isIn currA fuel (next currB)

def getIntersectionNodeBruteForce (fuel : ℕ) (headA headB : Option Addr) : Option (Option Addr) :=
  firstThat next (fun currA => isIn next currA fuel headB) fuel headA

/-- the first loop of `getIntersectionNodeUsingHashing` -/
def collect : ℕ → Option Addr → Finset Addr → Option (Finset Addr)
  | 0, _, _ => none
  | _ + 1, none, nodesInB => some nodesInB
  | fuel + 1, some currB, nodesInB => collect fuel (next currB) (insert currB nodesInB)

def getIntersectionNodeUsingHashing (fuel : ℕ) (headA headB : Option Addr) : Option (Option Addr) := do
  let nodesInB ← collect next fuel headB ∅
  firstThat next (fun currA => some (decide (currA ∈ nodesInB))) fuel headA

/-- `while (curr) { len++; curr = curr->next; }` -/
def count : ℕ → Option Addr → ℤ → Option ℤ
  | 0, _, _ => none
  | _ + 1, none, len => some len
  | fuel + 1, some curr, len => (signed (len + 1)).bind fun len => count fuel (next curr) len

/-- `curr = curr->next`, `n` times -/
def skip : ℕ → Option Addr → Option (Option Addr)
  | 0, curr => some curr
  | _ + 1, none => none
  | n + 1, some a => skip n (next a)

/-- `while (currA && currB)` -/
def together : ℕ → Option Addr → Option Addr → Option (Option Addr)
  | 0, _, _ => none
  | fuel + 1, some currA, some currB =>
    if currA = currB then some (some currA) else together fuel (next currA) (next currB)
  | _ + 1, _, _ => some none

def getIntersectionNodeUsingLengthDifference (fuel : ℕ) (headA headB : Option Addr) : Option (Option Addr) := do
  let lenA ← count next fuel headA 0
  let lenB ← count next fuel headB 0
  if lenA > lenB then
    let currA ← skip next (lenA - lenB).toNat headA
    together next fuel currA headB
  else
    let currB ← skip next (lenB - lenA).toNat headB
    together next fuel headA currB

end Model

/-- the list from `head` has the nodes `l` -/
abbrev Listed (next : Addr → Option Addr) (head : Option Addr) (l : List Addr) : Prop :=
  HeapChain (fun a => some (next a)) head l

variable {next : Addr → Option Addr} {head headA headB : Option Addr} {a : Addr} {l la lb own ownA ownB shared : List Addr}
  {fuel : ℕ}

/-! ## The simple loops -/

theorem firstThat_eq {test : Addr → Option Bool} {P : Addr → Bool} (htest : ∀ a, test a = some (P a)) (h : Listed next head l)
    (hfuel : l.length < fuel) : firstThat next test fuel head = some (l.find? P) := by
  induction fuel generalizing head l with
  | zero => cases hfuel
  | succ fuel ih =>
    cases l with
    | nil =>
      obtain rfl : head = none := h
      rfl
    | cons a l =>
      obtain ⟨rfl, hrest⟩ := HeapChain.cons_iff.1 h
      show ((test a).bind fun b => _) = _
      rw [htest, Option.bind_some]
      cases hP : P a with
      | true => rw [List.find?_cons_of_pos hP, if_pos rfl]
      | false =>
        rw [List.find?_cons_of_neg (by simp [hP]), if_neg Bool.false_ne_true]
        exact ih hrest (Nat.lt_of_succ_lt_succ hfuel)

theorem isIn_eq [DecidableEq Addr] (h : Listed next head l) (hfuel : l.length < fuel) :
    isIn next a fuel head = some (decide (a ∈ l)) := by
  induction fuel generalizing head l with
  | zero => cases hfuel
  | succ fuel ih =>
    cases l with
    | nil =>
      obtain rfl : head = none := h
      rfl
    | cons b l =>
      obtain ⟨rfl, hrest⟩ := HeapChain.cons_iff.1 h
      rw [isIn]
      rcases eq_or_ne a b with rfl | hne
      · simp
      · rw [if_neg hne, ih hrest (Nat.lt_of_succ_lt_succ hfuel)]
        simp [hne]

theorem collect_eq [DecidableEq Addr] {nodesInB : Finset Addr} (h : Listed next head l) (hfuel : l.length < fuel) :
    collect next fuel head nodesInB = some (nodesInB ∪ l.toFinset) := by
  induction fuel generalizing head l nodesInB with
  | zero => cases hfuel
  | succ fuel ih =>
    cases l with
    | nil =>
      obtain rfl : head = none := h
      rw [List.toFinset_nil, Finset.union_empty]
      rfl
    | cons b l =>
      obtain ⟨rfl, hrest⟩ := HeapChain.cons_iff.1 h
      rw [collect, ih hrest (Nat.lt_of_succ_lt_succ hfuel), List.toFinset_cons, Finset.insert_union, Finset.union_insert]

theorem count_eq (len : ℕ) (h : Listed next head l) (hfuel : l.length < fuel) (hlen : len + l.length < 2 ^ 31) :
    count next fuel head len = some ((len + l.length : ℕ) : ℤ) := by
  induction fuel generalizing head l len with
  | zero => cases hfuel
  | succ fuel ih =>
    cases l with
    | nil =>
      obtain rfl : head = none := h
      rfl
    | cons a l =>
      obtain ⟨rfl, hrest⟩ := HeapChain.cons_iff.1 h
      rw [List.length_cons] at hlen ⊢
      rw [count, signed_of_small (by omega) (by omega), Option.bind_some]
      show count next fuel (next a) ((len + 1 : ℕ) : ℤ) = _
      rw [ih (len + 1) hrest (Nat.lt_of_succ_lt_succ hfuel) (by omega), add_assoc, add_comm 1]

/-- the number of nodes does not fit into an `int` -/
theorem count_big (len : ℕ) (h : Listed next head l) (hlen : len < 2 ^ 31) (hbig : 2 ^ 31 ≤ len + l.length) :
    count next fuel head len = none := by
  induction fuel generalizing head l len with
  | zero => rfl
  | succ fuel ih =>
    cases l with
    | nil =>
      rw [List.length_nil] at hbig
      omega
    | cons a l =>
      obtain ⟨rfl, hrest⟩ := HeapChain.cons_iff.1 h
      rw [List.length_cons] at hbig
      rw [count]
      rcases Nat.lt_or_ge (len + 1) (2 ^ 31) with hlt | hge
      · rw [signed_of_small (by omega) (by omega), Option.bind_some]
        exact ih (len + 1) hrest hlt (by omega)
      · rw [signed_of_big (by omega), Option.bind_none]

/-- so many nodes further, the list has so many fewer -/
theorem skip_eq {n : ℕ} (h : Listed next head (own ++ shared)) (hn : n ≤ own.length) :
    ∃ curr, skip next n head = some curr ∧ Listed next curr (own.drop n ++ shared) := by
  induction n generalizing head own with
  | zero => exact ⟨head, rfl, h⟩
  | succ n ih =>
    cases own with
    | nil => cases hn
    | cons a own =>
      obtain ⟨rfl, hrest⟩ := HeapChain.cons_iff.1 h
      exact ih hrest (Nat.le_of_succ_le_succ hn)

/-- side by side, the two lists get to their common end -/
theorem together_eq [DecidableEq Addr] (hA : Listed next headA (ownA ++ shared)) (hB : Listed next headB (ownB ++ shared))
    (hlen : ownA.length = ownB.length) (happart : ∀ a ∈ ownA, a ∉ ownB) (hfuel : ownA.length < fuel) :
    together next fuel headA headB = some shared.head? := by
  induction fuel generalizing headA headB ownA ownB with
  | zero => cases hfuel
  | succ fuel ih =>
    cases ownA with
    | nil =>
      obtain rfl := List.eq_nil_of_length_eq_zero hlen.symm
      obtain rfl := hA.head_eq
      obtain rfl := hB.head_eq
      rw [List.nil_append]
      cases shared with
      | nil => rfl
      | cons c shared => exact if_pos rfl
    | cons a ownA =>
      cases ownB with
      | nil => cases hlen
      | cons b ownB =>
        obtain ⟨rfl, hrestA⟩ := HeapChain.cons_iff.1 hA
        obtain ⟨rfl, hrestB⟩ := HeapChain.cons_iff.1 hB
        rw [List.forall_mem_cons] at happart
        have hne : a ≠ b := fun heq => happart.1 (heq ▸ List.mem_cons_self)
        rw [together, if_neg hne]
        exact ih hrestA hrestB (Nat.succ.inj hlen) (fun c hc hc' => happart.2 c hc (List.mem_cons_of_mem b hc'))
          (Nat.lt_of_succ_lt_succ hfuel)

/-! ## The switching pointers -/

/-- one pointer after the other -/
abbrev Steps (next : Addr → Option Addr) (other : Option Addr) (ps : List (Option Addr)) : Prop :=
  ps.IsChain fun p q => q = advance next other p

/-- the loop goes on while the pointers differ and stops where they are the same -/
theorem switching_meets [DecidableEq Addr] {p q m : Option Addr} (ps qs : List (Option Addr)) (hlen : ps.length = qs.length)
    (hp : (ps ++ [m]).head? = some p) (hq : (qs ++ [m]).head? = some q) (hps : Steps next headB (ps ++ [m]))
    (hqs : Steps next headA (qs ++ [m])) (hne : ∀ i < ps.length, ps[i]? ≠ qs[i]?) (hfuel : ps.length < fuel) :
    switching next headA headB fuel p q = some m := by
  induction fuel generalizing ps qs p q with
  | zero => cases hfuel
  | succ fuel ih =>
    rw [switching]
    cases ps with
    | nil =>
      obtain rfl := List.eq_nil_of_length_eq_zero hlen.symm
      obtain rfl := Option.some.inj hp
      obtain rfl := Option.some.inj hq
      rw [if_neg (not_not.2 rfl)]
    | cons p' ps =>
      cases qs with
      | nil => cases hlen
      | cons q' qs =>
        obtain rfl : p' = p := Option.some.inj hp
        obtain rfl : q' = q := Option.some.inj hq
        have hfirst : p' ≠ q' := fun heq => hne 0 (Nat.succ_pos _) (congrArg some heq)
        rw [if_pos hfirst]
        rw [Steps, List.cons_append, List.isChain_cons] at hps hqs
        have hhead : ∀ (l : List (Option Addr)), ∃ c, (l ++ [m]).head? = some c := fun l => by cases l <;> exact ⟨_, rfl⟩
        obtain ⟨c, hc⟩ := hhead ps
        obtain ⟨d, hd⟩ := hhead qs
        rw [← hps.1 c hc, ← hqs.1 d hd]
        exact ih ps qs (Nat.succ.inj hlen) hc hd hps.2 hqs.2 (fun i hi => hne (i + 1) (Nat.succ_lt_succ hi))
          (Nat.lt_of_succ_lt_succ hfuel)

theorem steps_own {other : Option Addr} (h : Listed next head (own ++ shared)) :
    Steps next other (own.map some ++ [shared.head?]) := by
  induction own generalizing head with
  | nil => exact List.IsChain.singleton _
  | cons a own ih =>
    obtain ⟨-, hrest⟩ := HeapChain.cons_iff.1 h
    rw [Steps, List.map_cons, List.cons_append, List.isChain_cons]
    refine ⟨fun q hq => ?_, ih hrest⟩
    show q = next a
    rw [HeapChain.head_eq hrest]
    cases own with
    | nil => exact (Option.some.inj hq).symm
    | cons b own => exact (Option.some.inj hq).symm

/-- through one list, and the own part of the other -/
theorem steps_both (hA : Listed next headA la) (hB : Listed next headB (ownB ++ shared)) :
    Steps next headB (la.map some ++ [none] ++ (ownB.map some ++ [shared.head?])) := by
  rw [Steps, List.isChain_append]
  rw [← List.append_nil la] at hA
  refine ⟨?_, steps_own hB, fun p hp q hq => ?_⟩
  · exact steps_own hA
  · rw [List.getLast?_append, List.getLast?_singleton, Option.some_or] at hp
    obtain rfl := Option.some.inj hp
    show q = headB
    rw [hB.head_eq]
    cases ownB with
    | nil => exact (Option.some.inj hq).symm
    | cons b own => exact (Option.some.inj hq).symm

section Rotated

variable {τ : Type} {P Q S : List τ} {i : ℕ}

theorem getElem?_rotated (hi : i < P.length + S.length + Q.length) :
    (P ++ S ++ Q)[i]? =
      (P ++ Q ++ S)[if i < P.length then i else if i < P.length + S.length then Q.length + i else i - S.length]? := by
  simp only [List.getElem?_append, List.length_append]
  split_ifs <;> first | rfl | omega | (congr 1; omega)

theorem getElem?_exchanged (hi : i < P.length + S.length + Q.length) :
    (Q ++ S ++ P)[i]? = (P ++ Q ++ S)[if i < Q.length + S.length then P.length + i else i - Q.length - S.length]? := by
  simp only [List.getElem?_append, List.length_append]
  split_ifs <;> first | rfl | omega | (congr 1; omega)

/-- with two parts of unequal length exchanged, a list without repetitions is another one at every position -/
theorem exchanged_apart (hnodup : (P ++ Q ++ S).Nodup) (hS : 0 < S.length) (hlen : P.length ≠ Q.length)
    (hi : i < P.length + S.length + Q.length) : (P ++ S ++ Q)[i]? ≠ (Q ++ S ++ P)[i]? := by
  rw [getElem?_rotated hi, getElem?_exchanged hi]
  intro heq
  have hsame := (List.getElem?_inj (by simp only [List.length_append]; split_ifs <;> omega) hnodup).1 heq
  split_ifs at hsame <;> omega

end Rotated

/-! ## Agreement -/

section Split

variable [DecidableEq Addr] (hA : Listed next headA (ownA ++ shared)) (hB : Listed next headB (ownB ++ shared))
  (hapart : ∀ a ∈ ownA, a ∉ ownB ++ shared)

include hapart in
theorem find_shared : (ownA ++ shared).find? (· ∈ ownB ++ shared) = shared.head? := by
  have hnone : ownA.find? (· ∈ ownB ++ shared) = none := by
    rw [List.find?_eq_none]
    intro a ha
    simp only [decide_eq_true_eq]
    exact hapart a ha
  rw [List.find?_append, hnone, Option.none_or]
  cases shared with
  | nil => rfl
  | cons c shared => exact List.find?_cons_of_pos (by simp)

include hA hB hapart

omit [DecidableEq Addr] in
/-- the pointers of both lists are all different -/
theorem nodup_pointers : (ownA.map some ++ ownB.map some ++ (shared.map some ++ [none])).Nodup := by
  have hnodupA := HeapChain.nodup hA
  have hnodupB := HeapChain.nodup hB
  rw [List.nodup_append'] at hnodupA hnodupB
  have hall : (ownA ++ ownB ++ shared).Nodup := by
    rw [List.nodup_append', List.nodup_append']
    refine ⟨⟨hnodupA.1, hnodupB.1, fun a ha hb => hapart a ha (List.mem_append_left _ hb)⟩, hnodupA.2.1, fun a ha hs => ?_⟩
    rcases List.mem_append.1 ha with ha | ha
    · exact hnodupA.2.2 ha hs
    · exact hnodupB.2.2 ha hs
  rw [← List.map_append, ← List.append_assoc, ← List.map_append, List.nodup_append']
  refine ⟨hall.map (Option.some_injective Addr), List.nodup_singleton none, fun p hp hnone => ?_⟩
  obtain rfl := List.mem_singleton.1 hnone
  obtain ⟨a, -, ha⟩ := List.mem_map.1 hp
  cases ha

theorem switching_eq (hfuel : ownA.length + shared.length + ownB.length + 1 < fuel) :
    switching next headA headB fuel headA headB = some shared.head? := by
  have hnodup := nodup_pointers hA hB hapart
  have hhead : ∀ (own : List Addr) (ps : List (Option Addr)),
      ((own ++ shared).map some ++ [none] ++ ps).head? = some (own ++ shared).head? := by
    intro own ps
    cases own ++ shared <;> rfl
  have hown : ∀ own : List Addr, (own.map some ++ [shared.head?]).head? = some (own ++ shared).head? := by
    intro own
    cases own <;> rfl
  by_cases hlen : ownA.length = ownB.length
  · -- the pointers get to the common end for the first time in the same round
    refine switching_meets (ownA.map some) (ownB.map some) (by simpa using hlen) ?_ ?_ (steps_own hA) (steps_own hB)
      (fun i hi heq => ?_) (by rw [List.length_map]; omega)
    · rw [hown, ← hA.head_eq]
    · rw [hown, ← hB.head_eq]
    · rw [List.length_map] at hi
      rw [List.getElem?_map, List.getElem?_map, List.getElem?_eq_getElem hi, List.getElem?_eq_getElem (hlen ▸ hi)] at heq
      simp only [Option.map_some, Option.some.injEq] at heq
      refine hapart _ (List.getElem_mem hi) (List.mem_append_left _ ?_)
      rw [heq]
      exact List.getElem_mem _
  · refine switching_meets ((ownA ++ shared).map some ++ [none] ++ ownB.map some)
      ((ownB ++ shared).map some ++ [none] ++ ownA.map some) ?_ ?_ ?_ ?_ ?_ (fun i hi => ?_) ?_
    · simp only [List.length_append, List.length_map]
      omega
    · rw [List.append_assoc, hhead, ← hA.head_eq]
    · rw [List.append_assoc, hhead, ← hB.head_eq]
    · rw [List.append_assoc]
      exact steps_both hA hB
    · rw [List.append_assoc]
      exact steps_both hB hA
    · have hdiffer := exchanged_apart (i := i) hnodup (by simp) (by simpa using hlen)
      simp only [List.length_append, List.length_map, List.length_singleton] at hi hdiffer
      rw [List.map_append, List.map_append, List.append_assoc (ownA.map some), List.append_assoc (ownB.map some)]
      exact hdiffer (by omega)
    · simp only [List.length_append, List.length_map, List.length_singleton]
      omega

theorem getIntersectionNode_eq (hfuel : ownA.length + shared.length + ownB.length + 1 < fuel) :
    getIntersectionNode next fuel headA headB = some shared.head? := by
  unfold getIntersectionNode
  split_ifs with hnull
  · -- one of the lists is empty
    rw [hA.head_eq, hB.head_eq] at hnull
    obtain rfl : shared = [] := by
      rcases hnull with hnull | hnull
      · exact (List.append_eq_nil_iff.1 (List.head?_eq_none_iff.1 hnull)).2
      · exact (List.append_eq_nil_iff.1 (List.head?_eq_none_iff.1 hnull)).2
    rfl
  · exact switching_eq hA hB hapart hfuel

theorem lengthDifference_eq (hlenA : (ownA ++ shared).length < 2 ^ 31) (hlenB : (ownB ++ shared).length < 2 ^ 31)
    (hfuelA : (ownA ++ shared).length < fuel) (hfuelB : (ownB ++ shared).length < fuel) :
    getIntersectionNodeUsingLengthDifference next fuel headA headB = some shared.head? := by
  have hcountA := count_eq 0 hA hfuelA (by omega)
  have hcountB := count_eq 0 hB hfuelB (by omega)
  rw [Nat.zero_add, Nat.cast_zero, List.length_append] at hcountA hcountB
  rw [List.length_append] at hfuelA hfuelB
  unfold getIntersectionNodeUsingLengthDifference
  rw [hcountA, hcountB]
  show (if ((ownA.length + shared.length : ℕ) : ℤ) > ((ownB.length + shared.length : ℕ) : ℤ) then _ else _) = _
  split_ifs with hlonger
  · obtain ⟨currA, hskip, hcurr⟩ := skip_eq hA (Nat.sub_le ownA.length ownB.length)
    have hrounds : (((ownA.length + shared.length : ℕ) : ℤ) - ((ownB.length + shared.length : ℕ) : ℤ)).toNat =
        ownA.length - ownB.length := by omega
    rw [hrounds, hskip]
    refine together_eq hcurr hB (by rw [List.length_drop]; omega) (fun a ha hb => ?_) (by rw [List.length_drop]; omega)
    exact hapart a (List.mem_of_mem_drop ha) (List.mem_append_left _ hb)
  · obtain ⟨currB, hskip, hcurr⟩ := skip_eq hB (Nat.sub_le ownB.length ownA.length)
    have hrounds : (((ownB.length + shared.length : ℕ) : ℤ) - ((ownA.length + shared.length : ℕ) : ℤ)).toNat =
        ownB.length - ownA.length := by omega
    rw [hrounds, hskip]
    refine together_eq hA hcurr (by rw [List.length_drop]; omega) (fun a ha hb => ?_) (by omega)
    exact hapart a ha (List.mem_append_left _ (List.mem_of_mem_drop hb))

end Split

/-- **The first common node.** For all lists in one heap and enough rounds, all four functions return the first node of `A`'s
list that is also in `B`'s, or null; the one that counts the nodes does if there are fewer than 2^31 in each list. -/
theorem intersections_agree [DecidableEq Addr] (next : Addr → Option Addr) (headA headB : Option Addr) (la lb : List Addr)
    (hA : Listed next headA la) (hB : Listed next headB lb) :
    ∃ rounds, ∀ fuel ≥ rounds,
      getIntersectionNode next fuel headA headB = some (la.find? (· ∈ lb)) ∧
        getIntersectionNodeBruteForce next fuel headA headB = some (la.find? (· ∈ lb)) ∧
        getIntersectionNodeUsingHashing next fuel headA headB = some (la.find? (· ∈ lb)) ∧
        (la.length < 2 ^ 31 → lb.length < 2 ^ 31 →
          getIntersectionNodeUsingLengthDifference next fuel headA headB = some (la.find? (· ∈ lb))) := by
  refine ⟨la.length + lb.length + 2, fun fuel hfuel => ⟨?_, ?_, ?_, fun hlenA hlenB => ?_⟩⟩
  · obtain ⟨ownA, ownB, shared, rfl, rfl, hapart⟩ := HeapChain.exists_shared hA hB
    simp only [List.length_append] at hfuel
    rw [find_shared hapart]
    exact getIntersectionNode_eq hA hB hapart (by omega)
  · exact firstThat_eq (fun a => isIn_eq hB (by omega)) hA (by omega)
  · unfold getIntersectionNodeUsingHashing
    rw [collect_eq hB (by omega), Finset.empty_union]
    refine firstThat_eq (fun a => ?_) hA (by omega)
    simp only [List.mem_toFinset]
  · obtain ⟨ownA, ownB, shared, rfl, rfl, hapart⟩ := HeapChain.exists_shared hA hB
    rw [find_shared hapart]
    exact lengthDifference_eq hA hB hapart hlenA hlenB (by omega) (by omega)

/-- the lists of `main`, 4 -> 1 -> 2 -> 8 -> 4 -> 5 and 5 -> 0 -> 1 -> 8 -> 4 -> 5, with the addresses 0 to 2, 3 to 5 and,
for the common end, 6 to 8 -/
def mainHeap : Fin 9 → Option (Fin 9) := ![some 1, some 2, some 6, some 4, some 5, some 6, some 7, some 8, none]

theorem intersections_agree_main :
    Listed mainHeap (some 0) [0, 1, 2, 6, 7, 8] ∧ Listed mainHeap (some 3) [3, 4, 5, 6, 7, 8] ∧
      ∃ rounds, ∀ fuel ≥ rounds,
        getIntersectionNode mainHeap fuel (some 0) (some 3) = some (some 6) ∧
          getIntersectionNodeBruteForce mainHeap fuel (some 0) (some 3) = some (some 6) ∧
          getIntersectionNodeUsingHashing mainHeap fuel (some 0) (some 3) = some (some 6) ∧
          getIntersectionNodeUsingLengthDifference mainHeap fuel (some 0) (some 3) = some (some 6) := by
  have hA : Listed mainHeap (some 0) [0, 1, 2, 6, 7, 8] := by simp [Listed, HeapChain, mainHeap]
  have hB : Listed mainHeap (some 3) [3, 4, 5, 6, 7, 8] := by simp [Listed, HeapChain, mainHeap]
  obtain ⟨rounds, hrounds⟩ := intersections_agree mainHeap (some 0) (some 3) _ _ hA hB
  refine ⟨hA, hB, rounds, fun fuel hfuel => ?_⟩
  obtain ⟨hswitch, hbrute, hhash, hlength⟩ := hrounds fuel hfuel
  exact ⟨hswitch, hbrute, hhash, hlength (by decide) (by decide)⟩

/-- a heap in which the list from `n` has the nodes `n`, ..., 1, 0 -/
def descending : ℕ → Option ℕ
  | 0 => none
  | n + 1 => some n

theorem listed_descending (n : ℕ) : Listed descending (some n) (List.range (n + 1)).reverse := by
  induction n with
  | zero => exact ⟨rfl, none, rfl, rfl⟩
  | succ n ih =>
    rw [List.range_succ, List.reverse_concat']
    exact HeapChain.cons_iff.2 ⟨rfl, ih⟩

theorem find_descending (n : ℕ) : (List.range (n + 1)).reverse.find? (· ∈ [0]) = some 0 := by
  induction n with
  | zero => rfl
  | succ n ih =>
    rw [List.range_succ, List.reverse_concat', List.find?_cons_of_neg (by simp), ih]

theorem not_counted {n : ℕ} (hn : 2 ^ 31 ≤ n + 1) (fuel : ℕ) (head : Option ℕ) :
    getIntersectionNodeUsingLengthDifference descending fuel (some n) head = none := by
  have hcount : count descending fuel (some n) 0 = none := by
    refine count_big 0 (listed_descending n) (by norm_num) ?_
    rw [List.length_reverse, List.length_range]
    omega
  unfold getIntersectionNodeUsingLengthDifference
  rw [hcount]
  rfl

/-- the first of 2 ^ 31 nodes -/
def farHead : ℕ := 2 ^ 31 - 1

/-- **The number of nodes overflows.** The list of 2 ^ 31 nodes that ends in the one node of the other is not counted. -/
theorem count_overflows :
    ∃ la lb, Listed descending (some farHead) la ∧ Listed descending (some 0) lb ∧ la.find? (· ∈ lb) = some 0 ∧
      ∀ fuel, getIntersectionNodeUsingLengthDifference descending fuel (some farHead) (some 0) ≠ some (some 0) := by
  have hfar : 2 ^ 31 ≤ farHead + 1 := by
    unfold farHead
    omega
  generalize farHead = n at hfar ⊢
  refine ⟨_, [0], listed_descending n, listed_descending 0, find_descending n, fun fuel => ?_⟩
  rw [not_counted hfar]
  exact nofun

end InterviewPrep.LinkedList.Intersection
