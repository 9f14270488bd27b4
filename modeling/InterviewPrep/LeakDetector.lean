/-
The leak detector of memoryLeakDetector/detector.cpp: `my_malloc`, `my_calloc`, `my_realloc` and `my_free` over the C
allocator, with a list of entries for the blocks that are live.

The allocator is outside: what it answers is part of a call. A legal answer is NULL or an address that is not live; for
`realloc` it may be the old address, and after NULL the old block stays live; `calloc` answers NULL when the product
overflows. `add_entry` asks the allocator for the entry itself and writes to it without a test, so that a NULL there ends
the program (`none`). The entries are never seen by the program; their list is a list here, newest first.

- `tracked_iff`: for every list of calls on NULL or live pointers with legal answers: after every call the list has one entry
  for each live block and nothing else, `report_leaks` lists the live blocks, and nothing was warned about, exactly if no
  `realloc` of a block and no entry was answered with NULL;
- `lost_block` is a `realloc` that fails: the block is live, the list is empty, and the report says that there are no leaks.
-/
import InterviewPrep.Core.Machine

namespace InterviewPrep.LeakDetector

/-! ## Model -/

/-- what is known about a block -/
structure Block where
  size : ℕ
  file : String
  line : ℤ
  deriving DecidableEq

/-- `mem_entry_t` -/
structure Entry (Addr : Type) where
  ptr : Addr
  block : Block
  deriving DecidableEq

structure St (Addr : Type) where
  /-- the list from `head` -/
  entries : List (Entry Addr)
  /-- the blocks that the program holds, by the allocator -/
  live : Addr → Option Block
  /-- pointers in warnings of `remove_entry` -/
  warnings : List Addr

/-- `answer` is what the real function returns, `entry` whether `add_entry` gets memory -/
inductive Call (Addr : Type) where
  | malloc (size : ℕ) (file : String) (line : ℤ) (answer : Option Addr) (entry : Bool)
  | calloc (nmemb size : ℕ) (file : String) (line : ℤ) (answer : Option Addr) (entry : Bool)
  | realloc (ptr : Option Addr) (size : ℕ) (file : String) (line : ℤ) (answer : Option Addr) (entry : Bool)
  | free (ptr : Option Addr)

/-- a line of the report -/
inductive Line (Addr : Type) where
  | noLeaks
  | leak (ptr : Addr) (block : Block)
  deriving DecidableEq

variable {Addr : Type} [DecidableEq Addr]

/-- the loop of `remove_entry`; `none` if it finds nothing -/
def removeFrom (ptr : Addr) : List (Entry Addr) → Option (List (Entry Addr))
  | [] => none
  | e :: es => if e.ptr = ptr then some es else (removeFrom ptr es).map (e :: ·)

namespace St

def init : St Addr := ⟨[], fun _ => none, []⟩

/-- the allocator gives out a block -/
def give (s : St Addr) (ptr : Addr) (b : Block) : St Addr := { s with live := Function.update s.live ptr (some b) }

/-- the allocator takes a block back -/
def take (s : St Addr) (ptr : Addr) : St Addr := { s with live := Function.update s.live ptr none }

def addEntry (s : St Addr) (ptr : Addr) (b : Block) (entry : Bool) : Option (St Addr) :=
  if entry then some { s with entries := ⟨ptr, b⟩ :: s.entries } else none

def removeEntry (s : St Addr) (ptr : Addr) : St Addr :=
  match removeFrom ptr s.entries with
  | some es => { s with entries := es }
  | none => { s with warnings := s.warnings ++ [ptr] }

def myMalloc (s : St Addr) (size : ℕ) (file : String) (line : ℤ) (answer : Option Addr) (entry : Bool) :
    Option (St Addr) :=
  match answer with
  | none => some s
  | some ptr => (s.give ptr ⟨size, file, line⟩).addEntry ptr ⟨size, file, line⟩ entry

/-- the product in the entry is one of `size_t` -/
def myCalloc (s : St Addr) (nmemb size : ℕ) (file : String) (line : ℤ) (answer : Option Addr) (entry : Bool) :
    Option (St Addr) :=
  match answer with
  | none => some s
  | some ptr => (s.give ptr ⟨nmemb * size, file, line⟩).addEntry ptr ⟨nmemb * size % 2 ^ 64, file, line⟩ entry

def myRealloc (s : St Addr) (ptr : Option Addr) (size : ℕ) (file : String) (line : ℤ) (answer : Option Addr)
    (entry : Bool) : Option (St Addr) :=
  let s := ptr.elim s s.removeEntry
  match answer with
  | none => some s
  | some newPtr => ((ptr.elim s s.take).give newPtr ⟨size, file, line⟩).addEntry newPtr ⟨size, file, line⟩ entry

def myFree (s : St Addr) (ptr : Option Addr) : St Addr := ptr.elim s fun p => (s.removeEntry p).take p

def reportLeaks (s : St Addr) : List (Line Addr) :=
  if s.entries.isEmpty then [.noLeaks] else s.entries.map fun e => .leak e.ptr e.block

end St

def step (s : St Addr) : Call Addr → Option (St Addr)
  | .malloc size file line answer entry => s.myMalloc size file line answer entry
  | .calloc nmemb size file line answer entry => s.myCalloc nmemb size file line answer entry
  | .realloc ptr size file line answer entry => s.myRealloc ptr size file line answer entry
  | .free ptr => some (s.myFree ptr)

/-- the arguments are NULL or live, and the answers are those of an allocator -/
def Legal (s : St Addr) : Call Addr → Prop
  | .malloc _ _ _ answer _ => ∀ p, answer = some p → s.live p = none
  | .calloc nmemb size _ _ answer _ => ∀ p, answer = some p → s.live p = none ∧ nmemb * size < 2 ^ 64
  | .realloc ptr size _ _ answer _ => 0 < size ∧ (∀ p, ptr = some p → (s.live p).isSome) ∧
      ∀ q, answer = some q → ptr = some q ∨ s.live q = none
  | .free ptr => ∀ p, ptr = some p → (s.live p).isSome

/-- the allocator has memory for the entry, and for a block that is to change its size -/
def Served : Call Addr → Prop
  | .malloc _ _ _ answer entry => answer.isSome → entry = true
  | .calloc _ _ _ _ answer entry => answer.isSome → entry = true
  | .realloc ptr _ _ _ answer entry => (ptr.isSome → answer.isSome) ∧ (answer.isSome → entry = true)
  | .free _ => True

/-- one entry for each live block, and nothing else -/
structure Exact (s : St Addr) : Prop where
  nodup : (s.entries.map Entry.ptr).Nodup
  live : ∀ p b, s.live p = some b ↔ ⟨p, b⟩ ∈ s.entries

/-- the report lists the live blocks, each once -/
def Reported (s : St Addr) : Prop := s.reportLeaks.Nodup ∧ ∀ p b, .leak p b ∈ s.reportLeaks ↔ s.live p = some b

/-- no call goes wrong, and all is well after each of them -/
def Tracks : St Addr → List (Call Addr) → Prop
  | _, [] => True
  | s, c :: cs => ∃ t, step s c = some t ∧ Exact t ∧ Reported t ∧ t.warnings = [] ∧ Tracks t cs

/-! ## The list -/

variable {s : St Addr} {p : Addr} {b : Block} {es : List (Entry Addr)}

/-- removal of a pointer that has an entry -/
theorem removeFrom_of_mem (hnodup : (es.map Entry.ptr).Nodup) (hmem : ⟨p, b⟩ ∈ es) :
    ∃ es', removeFrom p es = some es' ∧ es.Perm (⟨p, b⟩ :: es') := by
  induction es with
  | nil => cases hmem
  | cons e es ih =>
    rw [List.map_cons, List.nodup_cons] at hnodup
    by_cases he : e.ptr = p
    · -- a second entry for the pointer would be a duplicate
      have heq : e = ⟨p, b⟩ := by
        rcases List.mem_cons.1 hmem with hhead | htail
        · exact hhead.symm
        · exact absurd (he ▸ List.mem_map_of_mem htail) hnodup.1
      refine ⟨es, if_pos he, ?_⟩
      rw [heq]
    · have htail : ⟨p, b⟩ ∈ es := by
        rcases List.mem_cons.1 hmem with hhead | htail
        · rw [← hhead] at he
          exact absurd rfl he
        · exact htail
      obtain ⟨es', hremove, hperm⟩ := ih hnodup.2 htail
      refine ⟨e :: es', ?_, (hperm.cons e).trans (List.Perm.swap _ _ _)⟩
      rw [removeFrom, if_neg he, hremove, Option.map_some]

/-- what `remove_entry` does about a live block of an exact list -/
theorem removeEntry_spec (h : Exact s) (hlive : s.live p = some b) :
    ∃ es, s.removeEntry p = { s with entries := es } ∧ s.entries.Perm (⟨p, b⟩ :: es) ∧
      Exact ((s.removeEntry p).take p) := by
  obtain ⟨es, hremove, hperm⟩ := removeFrom_of_mem h.nodup ((h.live p b).1 hlive)
  have heq : s.removeEntry p = { s with entries := es } := by rw [St.removeEntry, hremove]
  have hnodup : (p :: es.map Entry.ptr).Nodup := (hperm.map Entry.ptr).nodup_iff.1 h.nodup
  rw [List.nodup_cons] at hnodup
  refine ⟨es, heq, hperm, ?_⟩
  rw [heq]
  refine ⟨hnodup.2, fun q c => ?_⟩
  show Function.update s.live p none q = some c ↔ ⟨q, c⟩ ∈ es
  rcases eq_or_ne q p with rfl | hne
  · simp only [Function.update_self, reduceCtorEq, false_iff]
    exact fun hmem => hnodup.1 (List.mem_map_of_mem (f := Entry.ptr) hmem)
  · rw [Function.update_of_ne hne, h.live q c, hperm.mem_iff, List.mem_cons]
    simp [hne]

/-- a new block with its entry -/
theorem addEntry_exact (h : Exact s) (hfree : s.live p = none) (b : Block) :
    Exact { s.give p b with entries := ⟨p, b⟩ :: s.entries } where
  nodup := by
    rw [List.map_cons, List.nodup_cons]
    refine ⟨fun hmem => ?_, h.nodup⟩
    obtain ⟨e, he, rfl⟩ := List.mem_map.1 hmem
    have hlive := (h.live e.ptr e.block).2 he
    cases hlive.symm.trans hfree
  live q c := by
    show Function.update s.live p (some b) q = some c ↔ ⟨q, c⟩ ∈ ⟨p, b⟩ :: s.entries
    rcases eq_or_ne q p with rfl | hne
    · have hnone : ⟨q, c⟩ ∉ s.entries := fun hmem => by cases ((h.live q c).2 hmem).symm.trans hfree
      rw [Function.update_self, Option.some.injEq, List.mem_cons]
      simp [hnone, eq_comm]
    · rw [Function.update_of_ne hne, h.live q c, List.mem_cons]
      simp [hne]

omit [DecidableEq Addr] in
theorem reported_of_exact (h : Exact s) : Reported s := by
  unfold Reported St.reportLeaks
  cases hentries : s.entries with
  | nil =>
    refine ⟨by simp, fun p b => ?_⟩
    rw [h.live p b, hentries]
    simp
  | cons e es =>
    rw [List.isEmpty_cons, if_neg Bool.false_ne_true, ← hentries]
    refine ⟨?_, fun p b => ?_⟩
    · have hptr : (s.entries.map fun e => Line.leak e.ptr e.block).map
          (fun | .leak p _ => some p | .noLeaks => none) = (s.entries.map Entry.ptr).map some := by
        rw [List.map_map, List.map_map]
        rfl
      apply List.Nodup.of_map
      rw [hptr]
      exact h.nodup.map (Option.some_injective _)
    · rw [h.live p b, List.mem_map]
      constructor
      · intro ⟨e, he, heq⟩
        obtain ⟨rfl, rfl⟩ := Line.leak.inj heq
        exact he
      · intro hmem
        exact ⟨⟨p, b⟩, hmem, rfl⟩

/-! ## Calls -/

/-- exact, and nothing warned about -/
def Clean (s : St Addr) : Prop := Exact s ∧ s.warnings = []

theorem addEntry_clean (h : Clean s) (hfree : s.live p = none) (b : Block) :
    ∃ t, (s.give p b).addEntry p b true = some t ∧ Clean t :=
  ⟨_, rfl, addEntry_exact h.1 hfree b, h.2⟩

theorem free_clean (h : Clean s) (hlive : (s.live p).isSome) : Clean ((s.removeEntry p).take p) := by
  obtain ⟨b, hb⟩ := Option.isSome_iff_exists.1 hlive
  obtain ⟨es, heq, -, hexact⟩ := removeEntry_spec h.1 hb
  refine ⟨hexact, ?_⟩
  rw [heq]
  exact h.2

/-- a call whose requests are served leaves the list exact -/
theorem step_clean (h : Clean s) {c : Call Addr} (hlegal : Legal s c) (hserved : Served c) :
    ∃ t, step s c = some t ∧ Clean t := by
  cases c with
  | malloc size file line answer entry =>
    cases answer with
    | none => exact ⟨s, rfl, h⟩
    | some p =>
      obtain rfl : entry = true := hserved rfl
      exact addEntry_clean h (hlegal p rfl) _
  | calloc nmemb size file line answer entry =>
    cases answer with
    | none => exact ⟨s, rfl, h⟩
    | some p =>
      obtain rfl : entry = true := hserved rfl
      obtain ⟨hfree, hfits⟩ := hlegal p rfl
      rw [step, St.myCalloc, Nat.mod_eq_of_lt hfits]
      exact addEntry_clean h hfree _
  | realloc ptr size file line answer entry =>
    obtain ⟨-, hptr, hanswer⟩ := hlegal
    cases ptr with
    | none =>
      cases answer with
      | none => exact ⟨s, rfl, h⟩
      | some q =>
        obtain rfl : entry = true := hserved.2 rfl
        exact addEntry_clean h ((hanswer q rfl).resolve_left (by simp)) _
    | some p =>
      obtain ⟨q, rfl⟩ := Option.isSome_iff_exists.1 (hserved.1 rfl)
      obtain rfl : entry = true := hserved.2 rfl
      have hclean : Clean ((s.removeEntry p).take p) := free_clean h (hptr p rfl)
      refine addEntry_clean hclean ?_ _
      -- the new address is the old one, or was not live
      have hlive : (s.removeEntry p).live = s.live := by
        unfold St.removeEntry
        split <;> rfl
      show Function.update (s.removeEntry p).live p none q = none
      rw [hlive]
      rcases eq_or_ne q p with rfl | hne
      · exact Function.update_self ..
      · rw [Function.update_of_ne hne]
        exact (hanswer q rfl).resolve_left fun heq => hne (Option.some.inj heq).symm
  | free ptr =>
    cases ptr with
    | none => exact ⟨s, rfl, h⟩
    | some p => exact ⟨_, rfl, free_clean h (hlegal p rfl)⟩

/-- a block that could not be moved has lost its entry -/
theorem realloc_lost (h : Exact s) (hlive : (s.live p).isSome) : ¬Exact (s.removeEntry p) := by
  intro hafter
  obtain ⟨b, hb⟩ := Option.isSome_iff_exists.1 hlive
  obtain ⟨es, heq, hperm, -⟩ := removeEntry_spec h hb
  have hnodup : (p :: es.map Entry.ptr).Nodup := (hperm.map Entry.ptr).nodup_iff.1 h.nodup
  have hmem : ⟨p, b⟩ ∈ (s.removeEntry p).entries := by
    rw [← hafter.live p b, heq]
    exact hb
  rw [heq] at hmem
  exact (List.nodup_cons.1 hnodup).1 (List.mem_map_of_mem (f := Entry.ptr) hmem)

/-- a call with a request that is not served goes wrong or leaves the list short -/
theorem served_of_exact (h : Exact s) {c : Call Addr} (hlegal : Legal s c) {t : St Addr} (hstep : step s c = some t)
    (hexact : Exact t) : Served c := by
  have hentry : ∀ {s t : St Addr} {p : Addr} {b : Block} {entry : Bool}, s.addEntry p b entry = some t → entry = true := by
    intro s t p b entry hadd
    rw [St.addEntry] at hadd
    split_ifs at hadd with hentry
    exact hentry
  cases c with
  | malloc size file line answer entry =>
    intro hsome
    obtain ⟨p, rfl⟩ := Option.isSome_iff_exists.1 hsome
    exact hentry hstep
  | calloc nmemb size file line answer entry =>
    intro hsome
    obtain ⟨p, rfl⟩ := Option.isSome_iff_exists.1 hsome
    exact hentry hstep
  | realloc ptr size file line answer entry =>
    constructor
    · intro hsome
      obtain ⟨p, rfl⟩ := Option.isSome_iff_exists.1 hsome
      by_contra hnone
      rw [Option.not_isSome_iff_eq_none] at hnone
      subst hnone
      obtain rfl : s.removeEntry p = t := Option.some.inj hstep
      exact realloc_lost h (hlegal.2.1 p rfl) hexact
    · intro hsome
      obtain ⟨q, rfl⟩ := Option.isSome_iff_exists.1 hsome
      exact hentry hstep
  | free ptr => trivial

theorem tracks_iff {calls : List (Call Addr)} (h : Clean s) (hlegal : Machine.Meets step Legal s calls) :
    Tracks s calls ↔ ∀ c ∈ calls, Served c := by
  induction calls generalizing s with
  | nil => simp [Tracks]
  | cons c calls ih =>
    obtain ⟨hfirst, hrest⟩ := hlegal
    constructor
    · intro htracks
      obtain ⟨t, hstep, hexact, -, hwarnings, htracks⟩ := htracks
      rw [List.forall_mem_cons]
      exact ⟨served_of_exact h.1 hfirst hstep hexact, (ih ⟨hexact, hwarnings⟩ (hrest t hstep)).1 htracks⟩
    · intro hserved
      rw [List.forall_mem_cons] at hserved
      obtain ⟨t, hstep, hclean⟩ := step_clean h hfirst hserved.1
      exact ⟨t, hstep, hclean.1, reported_of_exact hclean.1, hclean.2, (ih hclean (hrest t hstep)).2 hserved.2⟩

omit [DecidableEq Addr] in
theorem init_clean : Clean (St.init : St Addr) := by
  refine ⟨⟨List.nodup_nil, fun p b => ?_⟩, rfl⟩
  simp [St.init]

/-- **Tracking.** For every list of calls on NULL or live pointers, with legal answers of the allocator: no call writes
through NULL, and after every call the list has exactly one entry for each live block, `report_leaks` lists exactly the live
blocks and `remove_entry` has warned about none of them, if and only if the allocator never answers NULL to a `my_realloc`
of a block or for an entry. -/
theorem tracked_iff (calls : List (Call Addr)) (hlegal : Machine.Meets step Legal St.init calls) :
    Tracks St.init calls ↔ ∀ c ∈ calls, Served c :=
  tracks_iff init_clean hlegal

/-- a block is moved and freed -/
def moved : List (Call ℕ) :=
  [.malloc 8 "a.c" 3 (some 1) true, .realloc (some 1) 16 "a.c" 4 (some 2) true, .free (some 2)]

theorem tracked_iff_moved : Tracks St.init moved ∧ ∀ c ∈ moved, Served c := by
  have hlegal : Machine.Meets step Legal St.init moved := by
    refine .cons rfl (fun p _ => rfl) (.cons rfl ?_ (.cons rfl ?_ trivial))
    · refine ⟨by decide, fun p hp => ?_, fun q hq => ?_⟩
      · rw [← Option.some.inj hp]
        rfl
      · rw [← Option.some.inj hq]
        exact Or.inr rfl
    · intro p hp
      rw [← Option.some.inj hp]
      rfl
  have hserved : ∀ c ∈ moved, Served c := by simp [moved, Served]
  exact ⟨(tracked_iff moved hlegal).2 hserved, hserved⟩

/-- **A lost block.** A block of 8 bytes is allocated, and a `my_realloc` of it fails: the calls are legal, the block is live,
and the report says that there are no leaks. -/
theorem lost_block :
    Machine.Meets step Legal (St.init : St ℕ)
      [.malloc 8 "a.c" 3 (some 1) true, .realloc (some 1) 16 "a.c" 4 none true] ∧
    ∃ s, Machine.exec step (St.init : St ℕ)
        [.malloc 8 "a.c" 3 (some 1) true, .realloc (some 1) 16 "a.c" 4 none true] = some s ∧
      s.live 1 = some ⟨8, "a.c", 3⟩ ∧ s.entries = [] ∧ s.reportLeaks = [.noLeaks] := by
  refine ⟨.cons rfl (fun p _ => rfl) (.cons rfl ⟨by decide, fun p hp => ?_, fun q hq => ?_⟩ trivial), _, rfl, rfl, rfl, rfl⟩
  · rw [← Option.some.inj hp]
    rfl
  · cases hq

end InterviewPrep.LeakDetector
