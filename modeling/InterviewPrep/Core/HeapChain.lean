/-
Null-terminated linked lists in a heap.

`link a` is `none` where nothing is allocated, and else the link in the node at `a`. `HeapChain link hd l`: from `hd`, the
links go through the nodes `l`, all of them allocated, and end at null. A chain depends on its own nodes only (`congr`), it is
determined by where it starts (`unique`), and it visits no node twice (`nodup`); its nodes determine its links (`link_eq`). Two
chains in one heap are apart up to a common end (`exists_shared`).
-/
import Mathlib.Tactic

namespace InterviewPrep

variable {Addr : Type}

def HeapChain (link : Addr → Option (Option Addr)) : Option Addr → List Addr → Prop
  | hd, [] => hd = none
  | hd, a :: l => hd = some a ∧ ∃ n, link a = some n ∧ HeapChain link n l

namespace HeapChain

variable {link link' : Addr → Option (Option Addr)} {hd : Option Addr} {a : Addr} {l l' : List Addr}

theorem allocated (h : HeapChain link hd l) (ha : a ∈ l) : (link a).isSome := by
  induction l generalizing hd with
  | nil => cases ha
  | cons b l ih =>
    obtain ⟨-, n, hn, hrest⟩ := h
    rcases List.mem_cons.1 ha with rfl | htail
    · rw [hn]
      rfl
    · exact ih hrest htail

theorem head_eq (h : HeapChain link hd l) : hd = l.head? := by
  cases l with
  | nil => exact h
  | cons b l => exact h.1

/-- chains through the same nodes have the same links -/
theorem link_eq (h : HeapChain link hd l) {hd' : Option Addr} (h' : HeapChain link' hd' l) (ha : a ∈ l) : link' a = link a := by
  induction l generalizing hd hd' with
  | nil => cases ha
  | cons b l ih =>
    obtain ⟨-, n, hn, hrest⟩ := h
    obtain ⟨-, n', hn', hrest'⟩ := h'
    rcases List.mem_cons.1 ha with rfl | htail
    · rw [hn, hn', hrest.head_eq, hrest'.head_eq]
    · exact ih hrest hrest' htail

theorem congr (h : HeapChain link hd l) (hsame : ∀ a ∈ l, link' a = link a) : HeapChain link' hd l := by
  induction l generalizing hd with
  | nil => exact h
  | cons b l ih =>
    obtain ⟨hhd, n, hn, hrest⟩ := h
    rw [List.forall_mem_cons] at hsame
    exact ⟨hhd, n, hsame.1.trans hn, ih hrest hsame.2⟩

/-- in a heap without unallocated nodes -/
theorem cons_iff {next : Addr → Option Addr} :
    HeapChain (fun a => some (next a)) hd (a :: l) ↔ hd = some a ∧ HeapChain (fun a => some (next a)) (next a) l := by
  constructor
  · rintro ⟨hhd, n, hn, hrest⟩
    obtain rfl := Option.some.inj hn
    exact ⟨hhd, hrest⟩
  · rintro ⟨hhd, hrest⟩
    exact ⟨hhd, next a, rfl, hrest⟩

/-- a chain that starts at a node -/
theorem of_some (h : HeapChain link (some a) l) : ∃ n l', l = a :: l' ∧ link a = some n ∧ HeapChain link n l' := by
  cases l with
  | nil => cases h
  | cons b l' =>
    obtain ⟨hhd, n, hn, hrest⟩ := h
    obtain rfl : a = b := Option.some.inj hhd
    exact ⟨n, l', rfl, hn, hrest⟩

theorem unique (h : HeapChain link hd l) (h' : HeapChain link hd l') : l = l' := by
  induction l generalizing hd l' with
  | nil =>
    cases l' with
    | nil => rfl
    | cons b l' => cases h.symm.trans h'.1
  | cons a l ih =>
    obtain ⟨rfl, n, hn, hrest⟩ := h
    obtain ⟨n', l'', rfl, hn', hrest'⟩ := h'.of_some
    obtain rfl : n = n' := Option.some.inj (hn.symm.trans hn')
    rw [ih hrest hrest']

/-- from each of its nodes on, a chain is a chain -/
theorem from_mem (h : HeapChain link hd l) (ha : a ∈ l) : ∃ l₁ l₂, l = l₁ ++ l₂ ∧ HeapChain link (some a) l₂ := by
  induction l generalizing hd with
  | nil => cases ha
  | cons b l ih =>
    obtain ⟨rfl, n, hn, hrest⟩ := h
    rcases List.mem_cons.1 ha with rfl | htail
    · exact ⟨[], a :: l, rfl, rfl, n, hn, hrest⟩
    · obtain ⟨l₁, l₂, rfl, hchain⟩ := ih hrest htail
      exact ⟨b :: l₁, l₂, rfl, hchain⟩

theorem nodup (h : HeapChain link hd l) : l.Nodup := by
  induction l generalizing hd with
  | nil => exact List.nodup_nil
  | cons a l ih =>
    rw [List.nodup_cons]
    refine ⟨fun ha => ?_, ih h.2.choose_spec.2⟩
    -- the chain from the second visit would be the whole chain, but shorter
    obtain ⟨l₁, l₂, rfl, hagain⟩ := h.2.choose_spec.2.from_mem ha
    have hwhole : HeapChain link (some a) (a :: (l₁ ++ l₂)) := h.1 ▸ h
    have hlength := congrArg List.length (hwhole.unique hagain)
    rw [List.length_cons, List.length_append] at hlength
    omega

/-- two chains meet nowhere, or from their first common node on they are one -/
theorem exists_shared (h : HeapChain link hd l) {hd' : Option Addr} (h' : HeapChain link hd' l') :
    ∃ own own' shared, l = own ++ shared ∧ l' = own' ++ shared ∧ ∀ a ∈ own, a ∉ l' := by
  induction l generalizing hd with
  | nil => exact ⟨[], l', [], rfl, (List.append_nil l').symm, List.forall_mem_nil _⟩
  | cons a l ih =>
    by_cases ha : a ∈ l'
    · obtain ⟨l₁, l₂, rfl, hfrom⟩ := h'.from_mem ha
      obtain rfl : a :: l = l₂ := (show HeapChain link (some a) (a :: l) from h.1 ▸ h).unique hfrom
      exact ⟨[], l₁, a :: l, rfl, rfl, List.forall_mem_nil _⟩
    · obtain ⟨-, n, -, hrest⟩ := h
      obtain ⟨own, own', shared, rfl, rfl, hown⟩ := ih hrest
      refine ⟨a :: own, own', shared, rfl, rfl, ?_⟩
      rw [List.forall_mem_cons]
      exact ⟨ha, hown⟩

end HeapChain

end InterviewPrep
