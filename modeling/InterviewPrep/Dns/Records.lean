/-
The record table of dnsCache/dnsCacheHashMap.cpp.

128 chained buckets of A and CNAME records. A record is put at the head of the chain that the hash of its name gives, so the
newest record of a name is found first, whatever its type. `resolve` follows CNAME records, at most `MAX_CNAME_DEPTH` of them.
Names are C strings, cut to 255 characters when they are stored. An insertion has the time of its call, and `malloc` may fail;
the clock of a query is fixed. `char` is signed and `time_t` has 64 bits.

- `resolve_iff`: for insertions with names of at most 255 characters, `resolve` returns 1 exactly if at most 5 newest records
  that are unexpired CNAMEs lead to a newest record that is an unexpired A; it returns 0 on every cycle;
- `resolve_prints`: what it prints when it returns 1 ends with the addresses of that A record;
- `findRecord_insert_iff`: one insertion into any table is seen under its own name only, exactly if the name is stored whole.
-/
import InterviewPrep.Core.Chained

namespace InterviewPrep.Dns.Records

/-! ## Model -/

/-- the characters of a string before its NUL -/
structure CString where
  chars : List UInt8
  nul : 0 ∉ chars
  deriving DecidableEq

/-- `strncpy` of at most `n` characters into a zeroed array that is longer -/
def strncpy (s : CString) (n : ℕ) : CString := ⟨s.chars.take n, fun h => s.nul (List.mem_of_mem_take h)⟩

def tableSize : ℕ := 128
def maxIps : ℤ := 5
def maxDomainLen : ℕ := 256
def maxCnameDepth : ℕ := 5

inductive RecordType where
  | a
  | cname
  deriving DecidableEq

/-- `dns_record_t` -/
structure Record where
  domain : CString
  type : RecordType
  ips : List CString
  ipCount : ℤ
  cname : CString
  expiry : Int64

/-- `*str` as it is added to the hash -/
def charToUInt (c : UInt8) : UInt32 := c.toInt8.toInt32.toUInt32

def hash (s : CString) : ℕ := (s.chars.foldl (fun h c => h * 31 + charToUInt c) 0).toNat % tableSize

/-- `dns_table` -/
structure Table where
  buckets : List (List Record)
  length : buckets.length = tableSize

def Table.empty : Table := ⟨List.replicate tableSize [], List.length_replicate⟩

/-- a record goes to the head of its chain; `domain` is the full name -/
def Table.push (t : Table) (domain : CString) (rec : Record) : Table :=
  ⟨t.buckets.set (hash domain) (rec :: t.buckets.getD (hash domain) []), by rw [List.length_set, t.length]⟩

/-- the empty string -/
def emptyString : CString := ⟨[], List.not_mem_nil⟩

/-- `alloc` is whether `malloc` succeeds, `ips` are the rows of the argument, `time` is `time(NULL)` -/
def insertARecord (t : Table) (alloc : Bool) (time : Int64) (domain : CString) (ips : ℕ → CString) (ipCount : ℤ)
    (ttlSeconds : Int32) : Table :=
  if alloc then
    let count := if ipCount > maxIps then maxIps else ipCount
    t.push domain
      { domain := strncpy domain (maxDomainLen - 1)
        type := .a
        ips := (List.range count.toNat).map fun i => strncpy (ips i) 15
        ipCount := count
        cname := emptyString
        expiry := time + ttlSeconds.toInt64 }
  else t

def insertCnameRecord (t : Table) (alloc : Bool) (time : Int64) (domain cname : CString) (ttlSeconds : Int32) : Table :=
  if alloc then
    t.push domain
      { domain := strncpy domain (maxDomainLen - 1)
        type := .cname
        ips := []
        ipCount := 0
        cname := strncpy cname (maxDomainLen - 1)
        expiry := time + ttlSeconds.toInt64 }
  else t

/-- the first record of the chain with this name -/
def findRecord (t : Table) (domain : CString) : Option Record := Chained.lookup Record.domain hash t.buckets domain

/-- what `resolve` prints -/
inductive Line where
  | loopDetected
  | noRecord (domain : CString)
  | expired (domain : CString)
  | aRecord (domain : CString)
  | ip (ip : CString)
  | isCname (domain cname : CString)

/-- the value that is returned, and what is printed before -/
def resolve (t : Table) (now : Int64) (domain : CString) (depth : ℕ) : ℕ × List Line :=
  if depth > maxCnameDepth then (0, [.loopDetected])
  else
    match findRecord t domain with
    | none => (0, [.noRecord domain])
    | some rec =>
      if now > rec.expiry then (0, [.expired domain])
      else
        match rec.type with
        | .a => (1, .aRecord domain :: (rec.ips.take rec.ipCount.toNat).map .ip)
        | .cname =>
          let (value, lines) := resolve t now rec.cname (depth + 1)
          (value, .isCname domain rec.cname :: lines)
termination_by maxCnameDepth + 1 - depth

/-! ### Insertions -/

inductive Payload where
  | a (ips : ℕ → CString) (ipCount : ℤ)
  | cname (cname : CString)

/-- a call of `insert_a_record` or `insert_cname_record` -/
structure Call where
  alloc : Bool
  time : Int64
  domain : CString
  payload : Payload
  ttlSeconds : Int32

def insert (t : Table) (call : Call) : Table :=
  match call.payload with
  | .a ips ipCount => insertARecord t call.alloc call.time call.domain ips ipCount call.ttlSeconds
  | .cname cname => insertCnameRecord t call.alloc call.time call.domain cname call.ttlSeconds

def insertAll (calls : List Call) : Table := calls.foldl insert .empty

/-! ### What it is for -/

/-- the names are stored whole -/
def Call.Short (call : Call) : Prop :=
  call.domain.chars.length < maxDomainLen ∧
    match call.payload with
    | .a _ _ => True
    | .cname cname => cname.chars.length < maxDomainLen

/-- the last insertion of a record for `d` -/
def latest (calls : List Call) (d : CString) : Option Call :=
  calls.reverse.find? fun call => call.alloc ∧ call.domain = d

def Call.expiry (call : Call) : Int64 := call.time + call.ttlSeconds.toInt64

/-- the newest record of `d` is a CNAME to `e` -/
def Points (calls : List Call) (d e : CString) : Prop :=
  ∃ call, latest calls d = some call ∧ call.payload = .cname e

/-- the newest record of `d` is a CNAME to `e` and not expired -/
def Alias (calls : List Call) (now : Int64) (d e : CString) : Prop :=
  ∃ call, latest calls d = some call ∧ call.payload = .cname e ∧ now ≤ call.expiry

/-- the newest record of `d` is an A record and not expired -/
def Address (calls : List Call) (now : Int64) (d : CString) : Prop :=
  ∃ call ips ipCount, latest calls d = some call ∧ call.payload = .a ips ipCount ∧ now ≤ call.expiry

/-! ## The table -/

variable {t : Table} {calls : List Call} {call : Call} {d e : CString} {now : Int64} {depth : ℕ}

/-- the record that an insertion stores -/
def Call.record (call : Call) : Record :=
  match call.payload with
  | .a ips ipCount =>
    let count := if ipCount > maxIps then maxIps else ipCount
    { domain := strncpy call.domain (maxDomainLen - 1)
      type := .a
      ips := (List.range count.toNat).map fun i => strncpy (ips i) 15
      ipCount := count
      cname := emptyString
      expiry := call.expiry }
  | .cname cname =>
    { domain := strncpy call.domain (maxDomainLen - 1)
      type := .cname
      ips := []
      ipCount := 0
      cname := strncpy cname (maxDomainLen - 1)
      expiry := call.expiry }

theorem insert_eq (t : Table) (call : Call) : insert t call = if call.alloc then t.push call.domain call.record else t := by
  unfold insert Call.record
  cases call.payload <;> rfl

theorem strncpy_of_short {s : CString} (h : s.chars.length < maxDomainLen) : strncpy s (maxDomainLen - 1) = s := by
  unfold strncpy
  congr 1
  exact List.take_of_length_le (Nat.le_sub_one_of_lt h)

theorem record_domain (call : Call) : call.record.domain = strncpy call.domain (maxDomainLen - 1) := by
  unfold Call.record
  cases call.payload <;> rfl

theorem record_expiry (call : Call) : call.record.expiry = call.expiry := by
  unfold Call.record
  cases call.payload <;> rfl

theorem hash_lt (t : Table) (s : CString) : hash s < t.buckets.length := t.length ▸ Nat.mod_lt _ (by decide)

/-- the new record hides the older ones of its name, and no others -/
theorem findRecord_insert (h : call.domain.chars.length < maxDomainLen) (d : CString) :
    findRecord (insert t call) d =
      if call.alloc = true ∧ call.domain = d then some call.record else findRecord t d := by
  rw [insert_eq]
  cases call.alloc with
  | false => rw [if_neg Bool.false_ne_true, if_neg fun h => Bool.false_ne_true h.1]
  | true =>
    have hchain : ∀ k, Chained.find Record.domain k (call.record :: t.buckets.getD (hash call.domain) []) =
        if k = call.domain then some call.record else Chained.find Record.domain k (t.buckets.getD (hash call.domain) []) := by
      intro k
      rw [Chained.find_cons, record_domain, strncpy_of_short h]
      exact if_congr eq_comm rfl rfl
    rw [if_pos rfl, findRecord, Table.push, Chained.lookup_set (hash_lt t _) hchain]
    exact if_congr ⟨fun hd => ⟨rfl, hd.symm⟩, fun hd => hd.2.symm⟩ rfl rfl

theorem latest_concat (calls : List Call) (call : Call) (d : CString) :
    latest (calls ++ [call]) d = if call.alloc = true ∧ call.domain = d then some call else latest calls d := by
  unfold latest
  rw [List.reverse_concat, List.find?_cons]
  split_ifs with h
  · rw [decide_eq_true h]
  · rw [decide_eq_false h]

/-- what is found is what was inserted last -/
theorem findRecord_insertAll (h : ∀ call ∈ calls, call.Short) (d : CString) :
    findRecord (insertAll calls) d = (latest calls d).map Call.record := by
  induction calls using List.reverseRecOn with
  | nil =>
    rw [insertAll, List.foldl_nil, findRecord, Table.empty, Chained.lookup_replicate]
    rfl
  | append_singleton calls call ih =>
    have hcall := h call (List.mem_append_right _ List.mem_cons_self)
    rw [insertAll, List.foldl_concat, ← insertAll, findRecord_insert hcall.1, latest_concat,
      ih fun c hc => h c (List.mem_append_left _ hc)]
    split_ifs <;> rfl

theorem mem_of_latest (h : latest calls d = some call) : call ∈ calls := List.mem_reverse.1 (List.mem_of_find?_eq_some h)

/-! ## Names of any length -/

/-- what is found has the name that was asked for -/
theorem domain_of_findRecord {rec : Record} (h : findRecord t d = some rec) : rec.domain = d := by
  have hkey := List.find?_some h
  simpa using hkey

/-- **What an insertion changes.** In any table, after an insertion for a name `find_record` gives the new record for that
name and what it gave before for all others, exactly if the name has at most 255 characters. A longer one is hashed whole,
but stored cut and compared whole. -/
theorem findRecord_insert_iff (t : Table) (call : Call) (halloc : call.alloc = true) :
    (findRecord (insert t call) call.domain = some call.record ∧
      ∀ e, e ≠ call.domain → findRecord (insert t call) e = findRecord t e) ↔ call.domain.chars.length ≤ 255 := by
  constructor
  · intro h
    have hname : strncpy call.domain (maxDomainLen - 1) = call.domain := by
      rw [← record_domain]
      exact domain_of_findRecord h.1
    have hlength : (call.domain.chars.take 255).length = call.domain.chars.length :=
      congrArg (fun s : CString => s.chars.length) hname
    rw [List.length_take] at hlength
    omega
  · intro hshort
    have hlt : call.domain.chars.length < maxDomainLen := Nat.lt_succ_of_le hshort
    refine ⟨?_, fun e he => ?_⟩
    · rw [findRecord_insert hlt, if_pos ⟨halloc, rfl⟩]
    · rw [findRecord_insert hlt, if_neg fun heq => he heq.2.symm]

/-- `n` times the letter a -/
def letters (n : ℕ) : CString := ⟨List.replicate n 97, fun h => absurd (List.eq_of_mem_replicate h) (by decide)⟩

/-- an alias for a name -/
def aliasFor (name : CString) : Call := ⟨true, 100, name, .cname (letters 3), 60⟩

theorem findRecord_insert_iff_letters :
    findRecord (insert .empty (aliasFor (letters 5))) (letters 5) = some (aliasFor (letters 5)).record ∧
      findRecord (insert .empty (aliasFor (letters 5))) (letters 6) = findRecord .empty (letters 6) := by
  have h := (findRecord_insert_iff .empty (aliasFor (letters 5)) rfl).2 (by decide)
  exact ⟨h.1, h.2 (letters 6) (by decide)⟩

/-- **A record that is not found.** After the insertion of an alias for a name of 256 characters nothing is found for it. -/
theorem long_name_lost :
    findRecord (insert .empty (aliasFor (letters 256))) (letters 256) = none ∧
      ¬(findRecord (insert .empty (aliasFor (letters 256))) (letters 256) = some (aliasFor (letters 256)).record ∧
        ∀ e, e ≠ letters 256 →
          findRecord (insert .empty (aliasFor (letters 256))) e = findRecord .empty e) := by
  have hnone : findRecord (insert .empty (aliasFor (letters 256))) (letters 256) = none := by
    rw [← Option.isNone_iff_eq_none]
    decide +kernel
  refine ⟨hnone, fun h => ?_⟩
  rw [hnone] at h
  cases h.1

/-! ## Resolution -/

/-- `k` aliases and an address -/
def Leads (calls : List Call) (now : Int64) : ℕ → CString → Prop
  | 0, d => Address calls now d
  | k + 1, d => ∃ e, Alias calls now d e ∧ Leads calls now k e

theorem leads_iff {k : ℕ} : Leads calls now k d ↔
    ∃ names : ℕ → CString, names 0 = d ∧ (∀ i < k, Alias calls now (names i) (names (i + 1))) ∧
      Address calls now (names k) := by
  induction k generalizing d with
  | zero =>
    constructor
    · exact fun h => ⟨fun _ => d, rfl, fun i hi => absurd hi (Nat.not_lt_zero i), h⟩
    · intro h
      obtain ⟨names, rfl, -, h⟩ := h
      exact h
  | succ k ih =>
    constructor
    · intro h
      obtain ⟨e, halias, hleads⟩ := h
      obtain ⟨names, rfl, haliases, haddress⟩ := ih.1 hleads
      refine ⟨fun i => if i = 0 then d else names (i - 1), rfl, fun i hi => ?_, haddress⟩
      cases i with
      | zero => exact halias
      | succ i => exact haliases i (by omega)
    · intro h
      obtain ⟨names, rfl, haliases, haddress⟩ := h
      refine ⟨names 1, haliases 0 (by omega), ih.2 ⟨fun i => names (i + 1), rfl, fun i hi => ?_, haddress⟩⟩
      exact haliases (i + 1) (by omega)

/-- the newest record has not expired -/
theorem latest_of_leads {k : ℕ} (h : Leads calls now k d) : ∃ call, latest calls d = some call ∧ now ≤ call.expiry := by
  cases k with
  | zero =>
    obtain ⟨call, -, -, hlatest, -, hle⟩ := h
    exact ⟨call, hlatest, hle⟩
  | succ k =>
    obtain ⟨e, ⟨call, hlatest, -, hle⟩, -⟩ := h
    exact ⟨call, hlatest, hle⟩

/-- an unexpired CNAME is followed -/
theorem leads_of_cname (h : latest calls d = some call) (hpayload : call.payload = .cname e) (hle : now ≤ call.expiry)
    (k : ℕ) : Leads calls now k d ↔ ∃ j, k = j + 1 ∧ Leads calls now j e := by
  cases k with
  | zero =>
    refine iff_of_false (fun hleads => ?_) fun hj => by
      obtain ⟨j, hj, -⟩ := hj
      omega
    obtain ⟨call', ips, ipCount, hlatest, hpayload', -⟩ := hleads
    obtain rfl := Option.some.inj (h.symm.trans hlatest)
    cases hpayload.symm.trans hpayload'
  | succ k =>
    constructor
    · intro hleads
      obtain ⟨e', ⟨call', hlatest, hpayload', -⟩, hrest⟩ := hleads
      obtain rfl := Option.some.inj (h.symm.trans hlatest)
      obtain rfl := Payload.cname.inj (hpayload.symm.trans hpayload')
      exact ⟨k, rfl, hrest⟩
    · intro hj
      obtain ⟨j, hj, hrest⟩ := hj
      obtain rfl := Nat.succ.inj hj
      exact ⟨e, ⟨call, h, hpayload, hle⟩, hrest⟩

/-- one call of `resolve` -/
theorem resolve_value (h : ∀ call ∈ calls, call.Short) (now : Int64) (d : CString) (hdepth : depth ≤ maxCnameDepth) :
    (resolve (insertAll calls) now d depth).1 =
      match latest calls d with
      | none => 0
      | some call =>
        if now ≤ call.expiry then
          match call.payload with
          | .a _ _ => 1
          | .cname e => (resolve (insertAll calls) now e (depth + 1)).1
        else 0 := by
  rw [resolve, if_neg (Nat.not_lt.2 hdepth), findRecord_insertAll h]
  cases hlatest : latest calls d with
  | none => rfl
  | some call =>
    rw [Option.map_some]
    dsimp only
    rw [record_expiry]
    split_ifs with hexpired hle hle
    · exact absurd hexpired (Int64.not_lt.2 hle)
    · rfl
    · cases hpayload : call.payload with
      | a ips ipCount =>
        have htype : call.record.type = .a := by rw [Call.record, hpayload]
        rw [htype]
      | cname e =>
        have htype : call.record.type = .cname := by rw [Call.record, hpayload]
        have hcname : call.record.cname = e := by
          have hshort := (h call (mem_of_latest hlatest)).2
          rw [hpayload] at hshort
          rw [Call.record, hpayload]
          exact strncpy_of_short hshort
        rw [htype, hcname]
    · exact absurd (Int64.not_lt.1 hexpired) hle

theorem resolve_eq_one (h : ∀ call ∈ calls, call.Short) (now : Int64) (d : CString) (depth : ℕ) :
    (resolve (insertAll calls) now d depth).1 = 1 ↔ ∃ k, depth + k ≤ maxCnameDepth ∧ Leads calls now k d := by
  -- the depth still left decreases with each alias
  induction hleft : maxCnameDepth + 1 - depth generalizing d depth with
  | zero =>
    rw [resolve, if_pos (by omega)]
    refine iff_of_false (by simp) fun hk => ?_
    obtain ⟨k, hk, -⟩ := hk
    omega
  | succ left ih =>
    by_cases hunexpired : ∃ call, latest calls d = some call ∧ now ≤ call.expiry
    · obtain ⟨call, hlatest, hle⟩ := hunexpired
      rw [resolve_value h now d (by omega), hlatest]
      dsimp only
      rw [if_pos hle]
      cases hpayload : call.payload with
      | a ips ipCount => exact iff_of_true rfl ⟨0, by omega, call, ips, ipCount, hlatest, hpayload, hle⟩
      | cname e =>
        dsimp only
        rw [ih e (depth + 1) (by omega)]
        constructor
        · intro hk
          obtain ⟨k, hk, hleads⟩ := hk
          exact ⟨k + 1, by omega, (leads_of_cname hlatest hpayload hle (k + 1)).2 ⟨k, rfl, hleads⟩⟩
        · intro hk
          obtain ⟨k, hk, hleads⟩ := hk
          obtain ⟨j, rfl, hrest⟩ := (leads_of_cname hlatest hpayload hle k).1 hleads
          exact ⟨j, by omega, hrest⟩
    · refine iff_of_false (fun hone => hunexpired ?_) fun hk => ?_
      · rw [resolve_value h now d (by omega)] at hone
        cases hlatest : latest calls d with
        | none =>
          rw [hlatest] at hone
          cases hone
        | some call =>
          rw [hlatest] at hone
          dsimp only at hone
          split_ifs at hone with hle
          exact ⟨call, rfl, hle⟩
      · obtain ⟨k, -, hleads⟩ := hk
        exact hunexpired (latest_of_leads hleads)

/-- 0 or 1 is returned -/
theorem resolve_le_one (t : Table) (now : Int64) (d : CString) (depth : ℕ) : (resolve t now d depth).1 ≤ 1 := by
  fun_induction resolve t now d depth with
  | case1 => exact Nat.zero_le 1
  | case2 => exact Nat.zero_le 1
  | case3 => exact Nat.zero_le 1
  | case4 => exact le_rfl
  | case5 d depth hdepth rec hfind hexpired htype value lines hrec ih =>
    rw [hrec] at ih
    exact ih

theorem points_unique {x y : CString} (hx : Points calls d x) (hy : Points calls d y) : x = y := by
  obtain ⟨call, hlatest, hpayload⟩ := hx
  obtain ⟨call', hlatest', hpayload'⟩ := hy
  obtain rfl := Option.some.inj (hlatest.symm.trans hlatest')
  exact Payload.cname.inj (hpayload.symm.trans hpayload')

/-- no address is behind a cycle -/
theorem not_leads_of_cycle (hpath : Relation.ReflTransGen (Points calls) d e) (hcycle : Relation.TransGen (Points calls) e e)
    (k : ℕ) : ¬Leads calls now k d := by
  -- a name that leads to the cycle has a successor that does
  have hnext : ∀ {x}, Relation.ReflTransGen (Points calls) x e →
      ∃ y, Points calls x y ∧ Relation.ReflTransGen (Points calls) y e := by
    intro x hx
    rcases Relation.ReflTransGen.cases_head hx with rfl | ⟨y, hxy, hy⟩
    · obtain ⟨y, hxy, hy⟩ := Relation.TransGen.head'_iff.1 hcycle
      exact ⟨y, hxy, hy⟩
    · exact ⟨y, hxy, hy⟩
  induction k generalizing d with
  | zero =>
    intro hleads
    obtain ⟨y, ⟨call, hlatest, hpayload⟩, -⟩ := hnext hpath
    obtain ⟨call', ips, ipCount, hlatest', hpayload', -⟩ := hleads
    obtain rfl := Option.some.inj (hlatest.symm.trans hlatest')
    cases hpayload.symm.trans hpayload'
  | succ k ih =>
    intro hleads
    obtain ⟨y, hy, hye⟩ := hnext hpath
    obtain ⟨x, ⟨call, hlatest, hpayload, -⟩, hrest⟩ := hleads
    obtain rfl : y = x := points_unique hy ⟨call, hlatest, hpayload⟩
    exact ih hye hrest

/-- **Resolution.** After insertions with names of at most 255 characters, `resolve` returns 1 if and only if the newest records
of at most 5 names, each an unexpired CNAME to the next, lead to a name whose newest record is an unexpired A; and it returns 0
for a name that leads to a cycle of CNAMEs. -/
theorem resolve_iff (calls : List Call) (h : ∀ call ∈ calls, call.Short) (now : Int64) (d : CString) :
    ((resolve (insertAll calls) now d 0).1 = 1 ↔
      ∃ k ≤ maxCnameDepth, ∃ names : ℕ → CString, names 0 = d ∧
        (∀ i < k, Alias calls now (names i) (names (i + 1))) ∧ Address calls now (names k)) ∧
    ∀ e, Relation.ReflTransGen (Points calls) d e → Relation.TransGen (Points calls) e e →
      (resolve (insertAll calls) now d 0).1 = 0 := by
  have hone := resolve_eq_one h now d 0
  refine ⟨?_, fun e hpath hcycle => ?_⟩
  · rw [hone]
    simp only [Nat.zero_add, leads_iff]
  · have hle := resolve_le_one (insertAll calls) now d 0
    have hne : (resolve (insertAll calls) now d 0).1 ≠ 1 := by
      intro heq
      obtain ⟨k, -, hleads⟩ := hone.1 heq
      exact not_leads_of_cycle hpath hcycle k hleads
    omega

def server : CString := ⟨['s'.toUInt8], by decide⟩

def www : CString := ⟨['w'.toUInt8], by decide⟩

/-- the server has an address and `www` is an alias of it, both for 60 seconds -/
def sampleCalls : List Call := [⟨true, 0, server, .a (fun _ => emptyString) 1, 60⟩, ⟨true, 0, www, .cname server, 60⟩]

theorem resolve_iff_www : (resolve (insertAll sampleCalls) 30 www 0).1 = 1 := by
  have hshort : ∀ call ∈ sampleCalls, call.Short := by
    intro call hcall
    rcases List.mem_pair.1 hcall with rfl | rfl
    · exact ⟨by decide, trivial⟩
    · exact ⟨by decide, by decide⟩
  refine (resolve_iff sampleCalls hshort 30 www).1.2 ⟨1, by decide, fun i => if i = 0 then www else server, rfl, ?_, ?_⟩
  · intro i hi
    obtain rfl := Nat.lt_one_iff.1 hi
    exact ⟨⟨true, 0, www, .cname server, 60⟩, rfl, rfl, by decide⟩
  · exact ⟨⟨true, 0, server, .a (fun _ => emptyString) 1, 60⟩, _, _, rfl, rfl, by decide⟩

/-- **Output.** When `resolve` returns 1, the last lines are the name and the addresses of an A record of the table. -/
theorem resolve_prints (h : (resolve t now d depth).1 = 1) :
    ∃ e rec, findRecord t e = some rec ∧ rec.type = .a ∧ now ≤ rec.expiry ∧
      (.aRecord e :: (rec.ips.take rec.ipCount.toNat).map .ip) <:+ (resolve t now d depth).2 := by
  fun_induction resolve t now d depth with
  | case1 => cases h
  | case2 => cases h
  | case3 => cases h
  | case4 d depth hdepth rec hfind hexpired htype =>
    exact ⟨d, rec, hfind, htype, Int64.not_lt.1 hexpired, List.suffix_rfl⟩
  | case5 d depth hdepth rec hfind hexpired htype value lines hrec ih =>
    rw [hrec] at ih
    obtain ⟨e, rec', hfind', htype', hle, hsuffix⟩ := ih h
    exact ⟨e, rec', hfind', htype', hle, hsuffix.trans (List.suffix_cons _ _)⟩

end InterviewPrep.Dns.Records
