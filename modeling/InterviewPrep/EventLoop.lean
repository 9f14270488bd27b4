/-
The server of pollMechanisms/epoll/hostapd.c, from the loop of `main` on: one thread, an epoll descriptor, and behind it a
netlink socket, a listening socket, a timer, a signal descriptor and the clients.

The program's steps are its system calls. What the kernel answers is part of the action, as far as it can answer so: `accept`
returns a descriptor that is not open, `epoll_wait` up to ten descriptors, each once, that are ready. The four descriptors of
`main` are level-triggered: they are ready as long as there is something. A client is edge-triggered: it is ready once for
everything that arrives (`edge`), and not again until more does. Connections, bytes, hang-ups, netlink messages, expirations and
signals come between any two steps. Connections are numbered as they come; a descriptor may be used for one after the other.

The handlers run until there is nothing left: `handle_unix_client` reads until EAGAIN, the end of the stream or an error. What is
left out: what is printed of netlink messages and of the timer, and failures of `fcntl`.

Results, for every run:
- `descriptors_sound`: the loop makes no call on a descriptor that is not open, although descriptors of one batch are closed and
  accepted again under way; watched are exactly the open clients, and at the end nothing of `main`'s is left open, only clients;
- `nobody_missed`: the pieces that are read of a connection are what its peer sent, up to what is unread, and all of it if the
  connection was closed at its end; a line is printed of each, and of a piece with a zero byte only what is before it is seen. When
  the loop waits, every client with something to read, or at its end, is ready.
-/
import InterviewPrep.Core.Machine
import InterviewPrep.Core.Threads

namespace InterviewPrep.EventLoop

/-! ## Model -/

/-- the descriptors that `main` opens before the loop -/
structure Fds where
  nl : ℕ
  us : ℕ
  tfd : ℕ
  sfd : ℕ
  epfd : ℕ
  distinct : [nl, us, tfd, sfd, epfd].Nodup

def Fds.all (fds : Fds) : List ℕ := [fds.nl, fds.us, fds.tfd, fds.sfd, fds.epfd]

inductive Pc where
  /-- at `epoll_wait` -/
  | waiting
  /-- at the top of the loop over `events` -/
  | handling
  | netlink
  | listening
  | adding (c : ℕ)
  | reading (c : ℕ)
  | stopping
  | stopped
  deriving DecidableEq

structure St where
  pc : Pc
  /-- the rest of `events` -/
  batch : List ℕ
  /-- which connection an open client descriptor belongs to -/
  owner : ℕ → Option ℕ
  /-- clients in the interest list -/
  watched : Finset ℕ
  /-- clients with an edge that has not been reported -/
  edge : Finset ℕ
  /-- connections that wait for `accept` -/
  backlog : List ℕ
  connected : ℕ
  sent : ℕ → List UInt8
  unread : ℕ → List UInt8
  hungUp : ℕ → Bool
  /-- the lines printed of a connection -/
  printed : ℕ → List (ℕ × List UInt8)
  /-- connections that the server has closed, and those of them whose end it has seen -/
  gone : Finset ℕ
  finished : Finset ℕ
  datagrams : ℕ
  expirations : ℕ
  signals : ℕ
  /-- nl, us, tfd, sfd and epfd are open -/
  mainOpen : Bool
  /-- a call was made on a descriptor that is not open -/
  badFd : Bool

inductive Act where
  -- the world
  | connect
  | arrive (i : ℕ) (bytes : List UInt8)
  | hangUp (i : ℕ)
  | datagram
  | expire
  | signal
  -- the program
  | epollWait (events : List ℕ)
  | interrupted
  | waitFails
  | next
  | recv
  | recvFails
  | accept (c : ℕ)
  | acceptFails
  | add (ok : Bool)
  | read (n : ℕ)
  | readFails
  | shutdown

namespace St

def init : St :=
  ⟨.waiting, [], fun _ => none, ∅, ∅, [], 0, fun _ => [], fun _ => [], fun _ => false, fun _ => [], ∅, ∅, 0, 0, 0, true, false⟩

def goto (s : St) (pc : Pc) : St := { s with pc := pc }

/-- `read` does not block: there are bytes, or the end -/
def readable (s : St) (i : ℕ) : Prop := s.unread i ≠ [] ∨ s.hungUp i = true

/-- the peer can still send -/
def live (s : St) (i : ℕ) : Prop := i < s.connected ∧ i ∉ s.gone ∧ s.hungUp i = false

/-- an edge for the client that the connection belongs to -/
def notice (s : St) (i : ℕ) : St := { s with edge := s.edge ∪ {c ∈ s.watched | s.owner c = some i} }

def arrive (s : St) (i : ℕ) (bytes : List UInt8) : St :=
  { s with
    sent := Function.update s.sent i (s.sent i ++ bytes)
    unread := Function.update s.unread i (s.unread i ++ bytes) }

def hangUp (s : St) (i : ℕ) : St := { s with hungUp := Function.update s.hungUp i true }

/-- `epoll_wait` may report the descriptor -/
def ready (fds : Fds) (s : St) (fd : ℕ) : Prop :=
  if fd = fds.nl then 0 < s.datagrams
  else if fd = fds.us then s.backlog ≠ []
  else if fd = fds.tfd then 0 < s.expirations
  else if fd = fds.sfd then 0 < s.signals
  else fd ∈ s.watched ∧ fd ∈ s.edge

def report (s : St) (events : List ℕ) : St :=
  { s with pc := .handling, batch := events, edge := s.edge \ events.toFinset }

/-- the loop over `events` is left, and the rest of them forgotten -/
def stop (s : St) : St := { s with pc := .stopping, batch := [] }

/-- the branches of the loop over `events`; `EPOLLIN`, `EPOLLHUP` or `EPOLLERR` is set in all that is reported -/
def dispatch (fds : Fds) (s : St) (fd : ℕ) : St :=
  if fd = fds.nl then s.goto .netlink
  else if fd = fds.us then s.goto .listening
  else if fd = fds.tfd then { s with expirations := 0, pc := .handling }
  else if fd = fds.sfd then
    if 0 < s.signals then { s with signals := s.signals - 1 }.stop else s.goto .handling
  else s.goto (.reading fd)

def adopt (s : St) (c i : ℕ) (rest : List ℕ) : St :=
  { s with owner := Function.update s.owner c (some i), backlog := rest, pc := .adding c }

/-- `EPOLL_CTL_ADD`: what is there already counts as an edge -/
def watch (s : St) (c : ℕ) (edge : Bool) : St :=
  { s with watched := insert c s.watched, edge := if edge then insert c s.edge else s.edge.erase c, pc := .listening }

/-- the descriptor leaves the interest list with `close` -/
def close (s : St) (c i : ℕ) (pc : Pc) : St :=
  { s with
    owner := Function.update s.owner c none
    watched := s.watched.erase c
    edge := s.edge.erase c
    gone := insert i s.gone
    pc := pc }

def bad (s : St) : St := { s with badFd := true, pc := .handling }

/-- `"read %zd bytes: %.*s"`: the string ends before the first zero byte -/
def line (bytes : List UInt8) : ℕ × List UInt8 := (bytes.length, bytes.takeWhile (· ≠ 0))

def print (s : St) (i n : ℕ) : St :=
  { s with
    printed := Function.update s.printed i (s.printed i ++ [line ((s.unread i).take n)])
    unread := Function.update s.unread i ((s.unread i).drop n) }

def finish (s : St) (i : ℕ) : St := { s with finished := insert i s.finished }

/-- `read(client_fd, buf, sizeof(buf))` and what follows it -/
def read (s : St) (c n : ℕ) : Option St :=
  match s.owner c with
  | none => some s.bad
  | some i =>
    if s.unread i ≠ [] then if 0 < n ∧ n ≤ 512 ∧ n ≤ (s.unread i).length then some (s.print i n) else none
    else if s.hungUp i then some ((s.close c i .handling).finish i)
    else some (s.goto .handling)

instance (s : St) (i : ℕ) : Decidable (s.readable i) := inferInstanceAs (Decidable (_ ∨ _))

instance (s : St) (i : ℕ) : Decidable (s.live i) := inferInstanceAs (Decidable (_ ∧ _))

instance (fds : Fds) (s : St) (fd : ℕ) : Decidable (s.ready fds fd) :=
  inferInstanceAs (Decidable (if fd = fds.nl then 0 < s.datagrams else if fd = fds.us then s.backlog ≠ []
    else if fd = fds.tfd then 0 < s.expirations else if fd = fds.sfd then 0 < s.signals else fd ∈ s.watched ∧ fd ∈ s.edge))

end St

def step (fds : Fds) (s : St) : Act → Option St
  | .connect => some { s with connected := s.connected + 1, backlog := s.backlog ++ [s.connected] }
  | .arrive i bytes => if s.live i then some ((s.arrive i bytes).notice i) else none
  | .hangUp i => if s.live i then some ((s.hangUp i).notice i) else none
  | .datagram => some { s with datagrams := s.datagrams + 1 }
  | .expire => some { s with expirations := s.expirations + 1 }
  | .signal => some { s with signals := s.signals + 1 }
  | .epollWait events =>
    if s.pc = .waiting ∧ events ≠ [] ∧ events.length ≤ 10 ∧ events.Nodup ∧ ∀ fd ∈ events, s.ready fds fd then
      some (s.report events)
    else none
  | .interrupted => if s.pc = .waiting then some s else none
  | .waitFails => if s.pc = .waiting then some s.stop else none
  | .next =>
    if s.pc = .handling then
      match s.batch with
      | [] => some (s.goto .waiting)
      | fd :: rest => some ({ s with batch := rest }.dispatch fds fd)
    else none
  | .recv =>
    if s.pc = .netlink then
      if s.datagrams = 0 then some (s.goto .handling) else some { s with datagrams := s.datagrams - 1 }
    else none
  | .recvFails => if s.pc = .netlink then some (s.goto .handling) else none
  | .accept c =>
    if s.pc = .listening then
      match s.backlog with
      | [] => some (s.goto .handling)
      | i :: rest => if s.owner c = none ∧ c ∉ fds.all then some (s.adopt c i rest) else none
    else none
  | .acceptFails => if s.pc = .listening then some (s.goto .handling) else none
  | .add ok =>
    match s.pc with
    | .adding c =>
      match s.owner c with
      | none => some s.bad
      | some i => if ok then some (s.watch c (decide (s.readable i))) else some (s.close c i .listening)
    | _ => none
  | .read n =>
    match s.pc with
    | .reading c => s.read c n
    | _ => none
  | .readFails =>
    match s.pc with
    | .reading c =>
      match s.owner c with
      | none => some s.bad
      | some i => some (s.close c i .handling)
    | _ => none
  | .shutdown => if s.pc = .stopping then some { s with mainOpen := false, pc := .stopped } else none

def run (fds : Fds) (acts : List Act) : Option St := Machine.exec (step fds) St.init acts

/-! ## What a step can do -/

/-- one of the descriptors that the loop over `events` knows -/
def Fds.Known (fds : Fds) (fd : ℕ) : Prop := fd = fds.nl ∨ fd = fds.us ∨ fd = fds.tfd ∨ fd = fds.sfd

def St.count (s : St) (datagrams expirations signals : ℕ) : St :=
  { s with datagrams := datagrams, expirations := expirations, signals := signals }

inductive Effect (fds : Fds) (s : St) : Act → St → Prop
  | connected : Effect fds s .connect { s with connected := s.connected + 1, backlog := s.backlog ++ [s.connected] }
  | arrived {i : ℕ} {bytes : List UInt8} (hlive : s.live i) : Effect fds s (.arrive i bytes) ((s.arrive i bytes).notice i)
  | hungUp {i : ℕ} (hlive : s.live i) : Effect fds s (.hangUp i) ((s.hangUp i).notice i)
  | counted {a : Act} {d e g : ℕ} : Effect fds s a (s.count d e g)
  | reported {events : List ℕ} (hpc : s.pc = .waiting) (hnodup : events.Nodup) (hready : ∀ fd ∈ events, s.ready fds fd) :
      Effect fds s (.epollWait events) (s.report events)
  | waitFailed (hpc : s.pc = .waiting) : Effect fds s .waitFails s.stop
  | allHandled (hpc : s.pc = .handling) (hbatch : s.batch = []) : Effect fds s .next (s.goto .waiting)
  | served {fd : ℕ} {rest : List ℕ} {pc : Pc} {d e g : ℕ} (hpc : s.pc = .handling) (hbatch : s.batch = fd :: rest)
      (hfd : fds.Known fd) (hnext : pc = .netlink ∨ pc = .listening ∨ pc = .handling) :
      Effect fds s .next ({ s with batch := rest }.goto pc |>.count d e g)
  | signalled {fd : ℕ} {rest : List ℕ} {d e g : ℕ} (hpc : s.pc = .handling) (hbatch : s.batch = fd :: rest) :
      Effect fds s .next ({ s with batch := rest }.count d e g).stop
  | client {fd : ℕ} {rest : List ℕ} (hpc : s.pc = .handling) (hbatch : s.batch = fd :: rest) (hfd : ¬fds.Known fd) :
      Effect fds s .next ({ s with batch := rest }.goto (.reading fd))
  | back {a : Act} (hpc : s.pc = .netlink ∨ s.pc = .listening) : Effect fds s a (s.goto .handling)
  | adopted {c i : ℕ} {rest : List ℕ} (hpc : s.pc = .listening) (hbacklog : s.backlog = i :: rest) (hclosed : s.owner c = none)
      (hc : c ∉ fds.all) : Effect fds s (.accept c) (s.adopt c i rest)
  | watched {c i : ℕ} (hpc : s.pc = .adding c) (howner : s.owner c = some i) :
      Effect fds s (.add true) (s.watch c (decide (s.readable i)))
  | closed {a : Act} {c i : ℕ} {pc : Pc} (hfrom : s.pc = .adding c ∧ pc = .listening ∨ s.pc = .reading c ∧ pc = .handling)
      (howner : s.owner c = some i) : Effect fds s a (s.close c i pc)
  | printed {c i n : ℕ} (hpc : s.pc = .reading c) (howner : s.owner c = some i)
      (hn : 0 < n ∧ n ≤ 512 ∧ n ≤ (s.unread i).length) : Effect fds s (.read n) (s.print i n)
  | ended {c i n : ℕ} (hpc : s.pc = .reading c) (howner : s.owner c = some i) (hunread : s.unread i = [])
      (hend : s.hungUp i = true) : Effect fds s (.read n) ((s.close c i .handling).finish i)
  | drained {c i n : ℕ} (hpc : s.pc = .reading c) (howner : s.owner c = some i) (hempty : ¬s.readable i) :
      Effect fds s (.read n) (s.goto .handling)
  | bad {a : Act} {c : ℕ} (hpc : s.pc = .adding c ∨ s.pc = .reading c) (howner : s.owner c = none) : Effect fds s a s.bad
  | shut (hpc : s.pc = .stopping) : Effect fds s .shutdown { s with mainOpen := false, pc := .stopped }

section Effects

variable {fds : Fds} {s s' : St} {a : Act}

theorem dispatch_effect {fd : ℕ} {rest : List ℕ} (hpc : s.pc = .handling) (hbatch : s.batch = fd :: rest) :
    Effect fds s .next ({ s with batch := rest }.dispatch fds fd) := by
  unfold St.dispatch
  split_ifs with hnl hus htfd hsfd hsignal
  · exact .served hpc hbatch (Or.inl hnl) (Or.inl rfl)
  · exact .served hpc hbatch (Or.inr (Or.inl hus)) (Or.inr (Or.inl rfl))
  · exact .served hpc hbatch (Or.inr (Or.inr (Or.inl htfd))) (Or.inr (Or.inr rfl))
  · exact .signalled hpc hbatch
  · exact .served hpc hbatch (Or.inr (Or.inr (Or.inr hsfd))) (Or.inr (Or.inr rfl))
  · refine .client hpc hbatch ?_
    unfold Fds.Known
    tauto

theorem read_effect {c n : ℕ} (hpc : s.pc = .reading c) (h : s.read c n = some s') : Effect fds s (.read n) s' := by
  unfold St.read at h
  split at h
  · rename_i howner
    obtain rfl := Option.some.inj h
    exact .bad (Or.inr hpc) howner
  · rename_i i howner
    split_ifs at h with hunread hn hend
    · obtain rfl := Option.some.inj h
      exact .printed hpc howner hn
    · obtain rfl := Option.some.inj h
      exact .ended hpc howner (not_not.1 hunread) hend
    · obtain rfl := Option.some.inj h
      exact .drained hpc howner fun hreadable => hreadable.elim (fun hne => hunread hne) hend

theorem step_effect (h : step fds s a = some s') : Effect fds s a s' := by
  cases a with
  | connect =>
    obtain rfl := Option.some.inj h
    exact .connected
  | arrive i bytes =>
    rw [step] at h
    split_ifs at h with hlive
    obtain rfl := Option.some.inj h
    exact .arrived hlive
  | hangUp i =>
    rw [step] at h
    split_ifs at h with hlive
    obtain rfl := Option.some.inj h
    exact .hungUp hlive
  | datagram =>
    obtain rfl := Option.some.inj h
    exact .counted
  | expire =>
    obtain rfl := Option.some.inj h
    exact .counted
  | signal =>
    obtain rfl := Option.some.inj h
    exact .counted
  | epollWait events =>
    rw [step] at h
    split_ifs at h with hwait
    obtain rfl := Option.some.inj h
    exact .reported hwait.1 hwait.2.2.2.1 hwait.2.2.2.2
  | interrupted =>
    rw [step] at h
    split_ifs at h
    obtain rfl := Option.some.inj h
    exact .counted
  | waitFails =>
    rw [step] at h
    split_ifs at h with hpc
    obtain rfl := Option.some.inj h
    exact .waitFailed hpc
  | next =>
    rw [step] at h
    split_ifs at h with hpc
    split at h
    · rename_i hbatch
      obtain rfl := Option.some.inj h
      exact .allHandled hpc hbatch
    · rename_i fd rest hbatch
      obtain rfl := Option.some.inj h
      exact dispatch_effect hpc hbatch
  | recv =>
    rw [step] at h
    split_ifs at h with hpc
    · obtain rfl := Option.some.inj h
      exact .back (Or.inl hpc)
    · obtain rfl := Option.some.inj h
      exact .counted
  | recvFails =>
    rw [step] at h
    split_ifs at h with hpc
    obtain rfl := Option.some.inj h
    exact .back (Or.inl hpc)
  | accept c =>
    obtain ⟨hpc, h⟩ := Option.ite_none_right_eq_some.1 h
    split at h
    · obtain rfl := Option.some.inj h
      exact .back (Or.inr hpc)
    · rename_i i rest hbacklog
      split_ifs at h with hnew
      obtain rfl := Option.some.inj h
      exact .adopted hpc hbacklog hnew.1 hnew.2
  | acceptFails =>
    rw [step] at h
    split_ifs at h with hpc
    obtain rfl := Option.some.inj h
    exact .back (Or.inr hpc)
  | add ok =>
    rw [step] at h
    split at h
    · rename_i c hpc
      split at h
      · rename_i howner
        obtain rfl := Option.some.inj h
        exact .bad (Or.inl hpc) howner
      · rename_i i howner
        cases ok with
        | true =>
          obtain rfl := Option.some.inj h
          exact .watched hpc howner
        | false =>
          obtain rfl := Option.some.inj h
          exact .closed (Or.inl ⟨hpc, rfl⟩) howner
    · cases h
  | read n =>
    rw [step] at h
    split at h
    · rename_i c hpc
      exact read_effect hpc h
    · cases h
  | readFails =>
    rw [step] at h
    split at h
    · rename_i c hpc
      split at h
      · rename_i howner
        obtain rfl := Option.some.inj h
        exact .bad (Or.inr hpc) howner
      · rename_i i howner
        obtain rfl := Option.some.inj h
        exact .closed (Or.inr ⟨hpc, rfl⟩) howner
    · cases h
  | shutdown =>
    rw [step] at h
    split_ifs at h with hpc
    obtain rfl := Option.some.inj h
    exact .shut hpc

end Effects

/-! ## Descriptors -/

/-- a connection has one place: it waits for `accept`, or belongs to one descriptor, or is gone -/
structure Ids (owner : ℕ → Option ℕ) (backlog : List ℕ) (gone : Finset ℕ) (connected : ℕ) : Prop where
  inj : ∀ c d i, owner c = some i → owner d = some i → c = d
  owned : ∀ c i, owner c = some i → i < connected ∧ i ∉ gone ∧ i ∉ backlog
  waiting : ∀ i ∈ backlog, i < connected ∧ i ∉ gone
  nodup : backlog.Nodup
  gone : ∀ i ∈ gone, i < connected

section Identities

variable {owner : ℕ → Option ℕ} {backlog rest : List ℕ} {gone : Finset ℕ} {connected c i : ℕ}

theorem Ids.connect (h : Ids owner backlog gone connected) : Ids owner (backlog ++ [connected]) gone (connected + 1) where
  inj := h.inj
  owned c i hi := by
    obtain ⟨hlt, hgone, hbacklog⟩ := h.owned c i hi
    refine ⟨Nat.lt_succ_of_lt hlt, hgone, ?_⟩
    rw [List.mem_append, List.mem_singleton]
    exact not_or.2 ⟨hbacklog, hlt.ne⟩
  waiting i hi := by
    rcases List.mem_append.1 hi with hold | hnew
    · exact ⟨Nat.lt_succ_of_lt (h.waiting i hold).1, (h.waiting i hold).2⟩
    · obtain rfl := List.mem_singleton.1 hnew
      exact ⟨Nat.lt_succ_self _, fun hgone => Nat.lt_irrefl _ (h.gone _ hgone)⟩
  nodup := by
    refine List.nodup_append.2 ⟨h.nodup, List.nodup_singleton _, fun i hi j hj => ?_⟩
    obtain rfl := List.mem_singleton.1 hj
    exact (h.waiting i hi).1.ne
  gone i hi := Nat.lt_succ_of_lt (h.gone i hi)

theorem Ids.adopt (h : Ids owner (i :: rest) gone connected) : Ids (Function.update owner c (some i)) rest gone connected := by
  obtain ⟨hi, hrest⟩ := List.nodup_cons.1 h.nodup
  have hnew : ∀ d, owner d ≠ some i := fun d hd => (h.owned d i hd).2.2 List.mem_cons_self
  refine ⟨fun d d' j hd hd' => ?_, fun d j hd => ?_, fun j hj => h.waiting j (List.mem_cons_of_mem i hj), hrest, h.gone⟩
  · rcases update_some_eq_some.1 hd with ⟨rfl, rfl⟩ | ⟨-, hold⟩ <;>
      rcases update_some_eq_some.1 hd' with ⟨rfl, heq⟩ | ⟨-, hold'⟩
    · rfl
    · exact absurd hold' (hnew d')
    · rw [← heq] at hold
      exact absurd hold (hnew d)
    · exact h.inj d d' j hold hold'
  · rcases update_some_eq_some.1 hd with ⟨rfl, rfl⟩ | ⟨-, hold⟩
    · exact ⟨(h.waiting i List.mem_cons_self).1, (h.waiting i List.mem_cons_self).2, hi⟩
    · obtain ⟨hlt, hgone, hbacklog⟩ := h.owned d j hold
      exact ⟨hlt, hgone, fun hmem => hbacklog (List.mem_cons_of_mem i hmem)⟩

theorem Ids.close (h : Ids owner backlog gone connected) (hc : owner c = some i) :
    Ids (Function.update owner c none) backlog (insert i gone) connected := by
  obtain ⟨hlt, hgone, hbacklog⟩ := h.owned c i hc
  refine ⟨fun d d' j hd hd' => h.inj d d' j (update_none_eq_some.1 hd).2 (update_none_eq_some.1 hd').2, fun d j hd => ?_,
    fun j hj => ?_, h.nodup, ?_⟩
  · obtain ⟨hne, hold⟩ := update_none_eq_some.1 hd
    obtain ⟨hlt', hgone', hbacklog'⟩ := h.owned d j hold
    refine ⟨hlt', fun hmem => ?_, hbacklog'⟩
    rcases Finset.mem_insert.1 hmem with rfl | hbefore
    · exact hne (h.inj d c j hold hc)
    · exact hgone' hbefore
  · refine ⟨(h.waiting j hj).1, fun hmem => ?_⟩
    rcases Finset.mem_insert.1 hmem with rfl | hbefore
    · exact hbacklog hj
    · exact (h.waiting j hj).2 hbefore
  · intro j hj
    rcases Finset.mem_insert.1 hj with rfl | hbefore
    · exact hlt
    · exact h.gone j hbefore

end Identities

structure Inv (fds : Fds) (s : St) : Prop where
  ids : Ids s.owner s.backlog s.gone s.connected
  apart : ∀ c, (s.owner c).isSome → c ∉ fds.all
  watched : ∀ c, c ∈ s.watched ↔ (s.owner c).isSome ∧ s.pc ≠ .adding c
  batchNodup : s.batch.Nodup
  batchOpen : ∀ fd ∈ s.batch, fds.Known fd ∨ fd ∈ s.watched
  waiting : s.pc = .waiting → s.batch = []
  adding : ∀ c, s.pc = .adding c → (s.owner c).isSome
  reading : ∀ c, s.pc = .reading c → (s.owner c).isSome ∧ c ∉ s.batch
  good : s.badFd = false
  mainOpen : s.mainOpen = false ↔ s.pc = .stopped

section Runs

variable {fds : Fds} {s s' : St} {a : Act}

theorem Fds.Known.mem {fd : ℕ} (h : fds.Known fd) : fd ∈ fds.all := by
  unfold Fds.all
  rcases h with rfl | rfl | rfl | rfl <;> simp

/-- the program goes on elsewhere, or the world has moved -/
theorem Inv.move (h : Inv fds s) (howner : s'.owner = s.owner) (hwatched : s'.watched = s.watched)
    (hids : Ids s'.owner s'.backlog s'.gone s'.connected) (hbatch : s'.batch.Sublist s.batch) (hbad : s'.badFd = s.badFd)
    (hmain : s'.mainOpen = s.mainOpen)
    (hpc : s'.pc = s.pc ∨ s.pc ≠ .stopped ∧ s'.pc ≠ .stopped ∧ (∀ c, s.pc ≠ .adding c) ∧ ∀ c, s'.pc ≠ .adding c)
    (hwaiting : s'.pc = .waiting → s'.batch = [])
    (hreading : ∀ c, s'.pc = .reading c → (s.owner c).isSome ∧ c ∉ s'.batch) : Inv fds s' where
  ids := hids
  apart c hc := h.apart c (howner ▸ hc)
  watched c := by
    rw [howner, hwatched, h.watched c]
    rcases hpc with heq | ⟨-, -, hfrom, hto⟩
    · rw [heq]
    · exact and_congr_right fun _ => iff_of_true (hfrom c) (hto c)
  batchNodup := h.batchNodup.sublist hbatch
  batchOpen fd hfd := hwatched ▸ h.batchOpen fd (hbatch.subset hfd)
  waiting := hwaiting
  adding c hc := by
    rcases hpc with heq | ⟨-, -, -, hto⟩
    · exact howner ▸ h.adding c (heq ▸ hc)
    · exact absurd hc (hto c)
  reading c hc := howner ▸ hreading c hc
  good := hbad.trans h.good
  mainOpen := by
    rw [hmain, h.mainOpen]
    rcases hpc with heq | ⟨hfrom, hto, -, -⟩
    · rw [heq]
    · exact iff_of_false hfrom hto

/-- the descriptor of the program counter is closed -/
theorem Inv.close (h : Inv fds s) {c i : ℕ} {pc : Pc}
    (hfrom : s.pc = .adding c ∧ pc = .listening ∨ s.pc = .reading c ∧ pc = .handling)
    (howner : s.owner c = some i) : Inv fds (s.close c i pc) := by
  have hto : (∀ d, pc ≠ .adding d) ∧ (∀ d, pc ≠ .reading d) ∧ pc ≠ .waiting ∧ pc ≠ .stopped ∧ s.pc ≠ .stopped := by
    rcases hfrom with ⟨hpc, rfl⟩ | ⟨hpc, rfl⟩ <;> simp [hpc]
  have hother : ∀ d, d ≠ c → s.pc ≠ .adding d := by
    intro d hne
    rcases hfrom with ⟨hpc, -⟩ | ⟨hpc, -⟩ <;> simp [hpc, hne.symm]
  have hnotBatch : c ∉ s.batch := by
    rcases hfrom with ⟨hpc, -⟩ | ⟨hpc, -⟩
    · intro hmem
      rcases h.batchOpen c hmem with hknown | hwatched
      · exact h.apart c (Option.isSome_iff_exists.2 ⟨i, howner⟩) hknown.mem
      · exact ((h.watched c).1 hwatched).2 hpc
    · exact (h.reading c hpc).2
  have hsome : ∀ d, (Function.update s.owner c none d).isSome ↔ d ≠ c ∧ (s.owner d).isSome := by
    intro d
    rcases eq_or_ne d c with rfl | hne
    · simp
    · simp [hne]
  refine ⟨h.ids.close howner, fun d hd => h.apart d ((hsome d).1 hd).2, fun d => ?_, h.batchNodup, fun fd hfd => ?_,
    fun heq => absurd heq hto.2.2.1, fun d heq => absurd heq (hto.1 d), fun d heq => absurd heq (hto.2.1 d), h.good,
    h.mainOpen.trans (iff_of_false hto.2.2.2.2 hto.2.2.2.1)⟩
  · refine Iff.trans ?_ (and_congr_left' (hsome d)).symm
    refine Finset.mem_erase.trans ?_
    rw [h.watched d]
    constructor
    · rintro ⟨hne, hd, -⟩
      exact ⟨⟨hne, hd⟩, hto.1 d⟩
    · rintro ⟨⟨hne, hd⟩, -⟩
      exact ⟨hne, hd, hother d hne⟩
  · refine (h.batchOpen fd hfd).imp id fun hwatched => Finset.mem_erase.2 ⟨?_, hwatched⟩
    rintro rfl
    exact hnotBatch hfd

theorem Inv.adopt (h : Inv fds s) {c i : ℕ} {rest : List ℕ} (hpc : s.pc = .listening) (hbacklog : s.backlog = i :: rest)
    (hclosed : s.owner c = none) (hc : c ∉ fds.all) : Inv fds (s.adopt c i rest) := by
  have hsome : ∀ d, (Function.update s.owner c (some i) d).isSome ↔ d = c ∨ (s.owner d).isSome := by
    intro d
    rcases eq_or_ne d c with rfl | hne
    · simp
    · simp [hne]
  refine ⟨(hbacklog ▸ h.ids).adopt, fun d hd => ?_, fun d => ?_, h.batchNodup, h.batchOpen, fun heq => (by cases heq), ?_,
    fun d heq => (by cases heq), h.good, h.mainOpen.trans (iff_of_false (by simp [hpc]) (by simp [St.adopt]))⟩
  · rcases (hsome d).1 hd with rfl | hold
    · exact hc
    · exact h.apart d hold
  · refine (h.watched d).trans (Iff.trans ?_ (and_congr_left' (hsome d)).symm)
    constructor
    · rintro ⟨hd, -⟩
      refine ⟨Or.inr hd, fun heq => ?_⟩
      obtain rfl := Pc.adding.inj heq
      rw [hclosed] at hd
      cases hd
    · rintro ⟨rfl | hd, hne⟩
      · exact absurd rfl hne
      · exact ⟨hd, by simp [hpc]⟩
  · intro d heq
    obtain rfl := Pc.adding.inj heq
    exact (hsome c).2 (Or.inl rfl)

theorem Inv.watch (h : Inv fds s) {c : ℕ} (edge : Bool) (hpc : s.pc = .adding c) : Inv fds (s.watch c edge) := by
  refine ⟨h.ids, h.apart, fun d => ?_, h.batchNodup, fun fd hfd => ?_, fun heq => (by cases heq), fun d heq => (by cases heq),
    fun d heq => (by cases heq), h.good, h.mainOpen.trans (iff_of_false (by simp [hpc]) (by simp [St.watch]))⟩
  · refine Finset.mem_insert.trans ?_
    rw [h.watched d, hpc]
    constructor
    · rintro (rfl | ⟨hd, -⟩)
      · exact ⟨h.adding d hpc, by simp [St.watch]⟩
      · exact ⟨hd, by simp [St.watch]⟩
    · rintro ⟨hd, -⟩
      rcases eq_or_ne d c with rfl | hne
      · exact Or.inl rfl
      · exact Or.inr ⟨hd, fun heq => hne (Pc.adding.inj heq).symm⟩
  · exact (h.batchOpen fd hfd).imp id (Finset.mem_insert_of_mem ·)

/-- the descriptor of the program counter is open -/
theorem Inv.owned (h : Inv fds s) {c : ℕ} (hpc : s.pc = .adding c ∨ s.pc = .reading c) : s.owner c ≠ none :=
  Option.isSome_iff_ne_none.1 (hpc.elim (h.adding c) fun hreading => (h.reading c hreading).1)

theorem step_inv (h : Inv fds s) (hstep : step fds s a = some s') : Inv fds s' := by
  cases step_effect hstep with
  | connected =>
    exact h.move rfl rfl h.ids.connect (List.Sublist.refl _) rfl rfl (Or.inl rfl) h.waiting h.reading
  | arrived | hungUp | counted =>
    exact h.move rfl rfl h.ids (List.Sublist.refl _) rfl rfl (Or.inl rfl) h.waiting h.reading
  | reported hpc hnodup hready =>
    refine ⟨h.ids, h.apart, fun c => (h.watched c).trans ?_, hnodup, fun fd hfd => ?_, fun heq => (by cases heq),
      fun c heq => (by cases heq), fun c heq => (by cases heq), h.good,
      h.mainOpen.trans (iff_of_false (by simp [hpc]) (by simp [St.report]))⟩
    · exact and_congr_right fun _ => iff_of_true (by simp [hpc]) (by simp [St.report])
    · have hfd := hready fd hfd
      unfold St.ready at hfd
      unfold Fds.Known
      split_ifs at hfd with hnl hus htfd hsfd
      · exact Or.inl (Or.inl hnl)
      · exact Or.inl (Or.inr (Or.inl hus))
      · exact Or.inl (Or.inr (Or.inr (Or.inl htfd)))
      · exact Or.inl (Or.inr (Or.inr (Or.inr hsfd)))
      · exact Or.inr hfd.1
  | waitFailed hpc =>
    exact h.move rfl rfl h.ids (List.nil_sublist _) rfl rfl (Or.inr (by simp [hpc, St.stop])) (fun _ => rfl)
      (fun c heq => by cases heq)
  | allHandled hpc hbatch =>
    exact h.move rfl rfl h.ids (List.Sublist.refl _) rfl rfl (Or.inr (by simp [hpc, St.goto])) (fun _ => hbatch)
      (fun c heq => by cases heq)
  | served hpc hbatch hfd hnext =>
    refine h.move rfl rfl h.ids (hbatch ▸ List.sublist_cons_self _ _) rfl rfl (Or.inr ?_) ?_ ?_ <;>
      rcases hnext with rfl | rfl | rfl <;> simp [hpc, St.goto, St.count]
  | signalled hpc hbatch =>
    exact h.move rfl rfl h.ids (List.nil_sublist _) rfl rfl (Or.inr (by simp [hpc, St.stop])) (fun _ => rfl)
      (fun c heq => by cases heq)
  | @client fd rest hpc hbatch hfd =>
    refine h.move rfl rfl h.ids (hbatch ▸ List.sublist_cons_self _ _) rfl rfl (Or.inr (by simp [hpc, St.goto]))
      (fun heq => by cases heq) fun c heq => ?_
    obtain rfl := Pc.reading.inj heq
    have hnodup := h.batchNodup
    rw [hbatch, List.nodup_cons] at hnodup
    have hopen := (h.batchOpen fd (hbatch ▸ List.mem_cons_self)).resolve_left hfd
    exact ⟨((h.watched fd).1 hopen).1, hnodup.1⟩
  | back hpc =>
    refine h.move rfl rfl h.ids (List.Sublist.refl _) rfl rfl (Or.inr ?_) (fun heq => by cases heq) (fun c heq => by cases heq)
    rcases hpc with hpc | hpc <;> simp [hpc, St.goto]
  | adopted hpc hbacklog hclosed hc => exact h.adopt hpc hbacklog hclosed hc
  | watched hpc howner => exact h.watch _ hpc
  | closed hfrom howner => exact h.close hfrom howner
  | printed hpc howner hn => exact h.move rfl rfl h.ids (List.Sublist.refl _) rfl rfl (Or.inl rfl) h.waiting h.reading
  | @ended c i n hpc howner hunread hend =>
    have hclosed := h.close (Or.inr ⟨hpc, rfl⟩) howner
    exact hclosed.move rfl rfl hclosed.ids (List.Sublist.refl _) rfl rfl (Or.inl rfl) hclosed.waiting hclosed.reading
  | drained hpc howner hempty =>
    exact h.move rfl rfl h.ids (List.Sublist.refl _) rfl rfl (Or.inr (by simp [hpc, St.goto])) (fun heq => by cases heq)
      (fun c heq => by cases heq)
  | bad hpc howner => exact absurd howner (h.owned hpc)
  | shut hpc =>
    refine ⟨h.ids, h.apart, fun c => (h.watched c).trans ?_, h.batchNodup, h.batchOpen, fun heq => (by cases heq),
      fun c heq => (by cases heq), fun c heq => (by cases heq), h.good, iff_of_true rfl rfl⟩
    exact and_congr_right fun _ => iff_of_true (by simp [hpc]) (by simp)

theorem init_inv : Inv fds St.init where
  ids := ⟨fun c d i hc => (by cases hc), fun c i hc => (by cases hc), fun i hi => absurd hi List.not_mem_nil, List.nodup_nil,
    fun i hi => absurd hi (Finset.notMem_empty i)⟩
  apart c hc := by cases hc
  watched c := iff_of_false (Finset.notMem_empty c) fun h => by cases h.1
  batchNodup := List.nodup_nil
  batchOpen fd hfd := absurd hfd List.not_mem_nil
  waiting _ := rfl
  adding c hc := by cases hc
  reading c hc := by cases hc
  good := rfl
  mainOpen := iff_of_false (by simp [St.init]) (by simp [St.init])

theorem run_inv {acts : List Act} (hrun : run fds acts = some s) : Inv fds s :=
  Machine.exec_inv (fun _ _ _ hstep h => step_inv h hstep) hrun init_inv

/-- **Descriptors.** In every run, whatever arrives and whatever the kernel answers, no call is made on a descriptor that is not
open; the clients in the interest list are those that are open, but for one that has just been accepted, and none of them is a
descriptor of `main`; no two descriptors belong to one connection; the descriptors of `main` are open until the end, and none of
them after it. -/
theorem descriptors_sound (fds : Fds) (acts : List Act) (s : St) (hrun : run fds acts = some s) :
    s.badFd = false ∧ (∀ c, c ∈ s.watched ↔ (s.owner c).isSome ∧ s.pc ≠ .adding c) ∧
      (∀ c, (s.owner c).isSome → c ∉ fds.all) ∧ (∀ c d i, s.owner c = some i → s.owner d = some i → c = d) ∧
      (s.mainOpen = false ↔ s.pc = .stopped) := by
  have h := run_inv hrun
  exact ⟨h.good, h.watched, h.apart, h.ids.inj, h.mainOpen⟩

/-! ## Bytes -/

/-- a line has been printed of each piece that was read -/
def Pieces (s : St) (i : ℕ) (pieces : List (List UInt8)) : Prop :=
  s.printed i = pieces.map St.line ∧ ∀ piece ∈ pieces, 0 < piece.length ∧ piece.length ≤ 512

/-- nothing is lost between a peer and what is read -/
structure Whole (s : St) : Prop where
  split : ∀ i, ∃ pieces, Pieces s i pieces ∧ pieces.flatten ++ s.unread i = s.sent i
  finished : ∀ i ∈ s.finished, s.unread i = [] ∧ s.hungUp i = true ∧ i ∈ s.gone

theorem step_whole (h : Whole s) (hinv : Inv fds s) (hstep : step fds s a = some s') : Whole s' := by
  cases step_effect hstep with
  | @arrived i bytes hlive =>
    refine ⟨fun j => ?_, fun j hj => ?_⟩
    · obtain ⟨pieces, hpieces, hsplit⟩ := h.split j
      refine ⟨pieces, hpieces, ?_⟩
      change pieces.flatten ++ Function.update s.unread i (s.unread i ++ bytes) j = Function.update s.sent i (s.sent i ++ bytes) j
      rcases eq_or_ne j i with rfl | hne
      · rw [Function.update_self, Function.update_self, ← List.append_assoc, hsplit]
      · rw [Function.update_of_ne hne, Function.update_of_ne hne, hsplit]
    · have hne : j ≠ i := by
        rintro rfl
        exact hlive.2.1 (h.finished j hj).2.2
      refine ⟨?_, (h.finished j hj).2⟩
      change Function.update s.unread i (s.unread i ++ bytes) j = []
      rw [Function.update_of_ne hne, (h.finished j hj).1]
  | @hungUp i hlive =>
    refine ⟨h.split, fun j hj => ⟨(h.finished j hj).1, ?_, (h.finished j hj).2.2⟩⟩
    change Function.update s.hungUp i true j = true
    rcases eq_or_ne j i with rfl | hne
    · rw [Function.update_self]
    · rw [Function.update_of_ne hne, (h.finished j hj).2.1]
  | @printed c i n hpc howner hn =>
    refine ⟨fun j => ?_, fun j hj => ?_⟩
    · obtain ⟨pieces, ⟨hprinted, hlengths⟩, hsplit⟩ := h.split j
      rcases eq_or_ne j i with rfl | hne
      · have hlength : ((s.unread j).take n).length = n := List.length_take_of_le hn.2.2
        refine ⟨pieces ++ [(s.unread j).take n], ⟨?_, fun piece hpiece => ?_⟩, ?_⟩
        · change Function.update s.printed j (s.printed j ++ [St.line ((s.unread j).take n)]) j = _
          rw [Function.update_self, hprinted, List.map_append, List.map_singleton]
        · rcases List.mem_append.1 hpiece with hold | hnew
          · exact hlengths piece hold
          · rw [List.mem_singleton.1 hnew, hlength]
            exact ⟨hn.1, hn.2.1⟩
        · change (pieces ++ [(s.unread j).take n]).flatten ++ Function.update s.unread j ((s.unread j).drop n) j = s.sent j
          rw [Function.update_self, List.flatten_append, List.flatten_singleton, List.append_assoc, List.take_append_drop, hsplit]
      · refine ⟨pieces, ⟨?_, hlengths⟩, ?_⟩
        · change Function.update s.printed i (s.printed i ++ [St.line ((s.unread i).take n)]) j = _
          rw [Function.update_of_ne hne, hprinted]
        · change pieces.flatten ++ Function.update s.unread i ((s.unread i).drop n) j = s.sent j
          rw [Function.update_of_ne hne, hsplit]
    · have hne : j ≠ i := by
        rintro rfl
        exact (hinv.ids.owned c j howner).2.1 (h.finished j hj).2.2
      refine ⟨?_, (h.finished j hj).2⟩
      change Function.update s.unread i ((s.unread i).drop n) j = []
      rw [Function.update_of_ne hne, (h.finished j hj).1]
  | @closed _ c i pc hfrom howner =>
    exact ⟨h.split, fun j hj => ⟨(h.finished j hj).1, (h.finished j hj).2.1, Finset.mem_insert_of_mem (h.finished j hj).2.2⟩⟩
  | @ended c i n hpc howner hunread hend =>
    refine ⟨h.split, fun j hj => ?_⟩
    rcases Finset.mem_insert.1 hj with rfl | hold
    · exact ⟨hunread, hend, Finset.mem_insert_self _ _⟩
    · exact ⟨(h.finished j hold).1, (h.finished j hold).2.1, Finset.mem_insert_of_mem (h.finished j hold).2.2⟩
  | _ => exact ⟨h.split, h.finished⟩

/-! ## Edges -/

/-- as long as the loop goes on: a client with something to read has an edge, or is about to be read -/
def Attended (s : St) : Prop :=
  s.pc ≠ .stopping → s.pc ≠ .stopped → ∀ c i, s.owner c = some i → s.readable i →
    c ∈ s.edge ∨ c ∈ s.batch ∨ s.pc = .reading c ∨ s.pc = .adding c

theorem Attended.running (h : Attended s) {pc : Pc} (hpc : s.pc = pc) (hrunning : pc ≠ .stopping ∧ pc ≠ .stopped) {c i : ℕ}
    (howner : s.owner c = some i) (hreadable : s.readable i) : c ∈ s.edge ∨ c ∈ s.batch ∨ pc = .reading c ∨ pc = .adding c := by
  subst hpc
  exact h hrunning.1 hrunning.2 c i howner hreadable

/-- where the client is neither read nor added, it has an edge, or its turn comes in the batch -/
theorem Attended.pending (h : Attended s) {pc : Pc} (hpc : s.pc = pc) (hrunning : pc ≠ .stopping ∧ pc ≠ .stopped) {c i : ℕ}
    (hreading : pc ≠ .reading c) (hadding : pc ≠ .adding c) (howner : s.owner c = some i) (hreadable : s.readable i) :
    c ∈ s.edge ∨ c ∈ s.batch := by
  rcases h.running hpc hrunning howner hreadable with hedge | hbatch | heq | heq
  · exact Or.inl hedge
  · exact Or.inr hbatch
  · exact absurd heq hreading
  · exact absurd heq hadding

/-- something arrives: its client has an edge, or is just being added -/
theorem notice_attended (h : Attended s) (hinv : Inv fds s) {i : ℕ} (howner : s'.owner = s.owner) (hpc : s'.pc = s.pc)
    (hbatch : s'.batch = s.batch) (hedge : s'.edge = s.edge ∪ {c ∈ s.watched | s.owner c = some i})
    (hsame : ∀ j, j ≠ i → s'.readable j → s.readable j) : Attended s' := by
  intro hrun hrun' c j hj hreadable
  rw [howner] at hj
  rw [hpc] at hrun hrun' ⊢
  rw [hbatch, hedge]
  rcases eq_or_ne j i with rfl | hne
  · by_cases hadding : s.pc = .adding c
    · exact Or.inr (Or.inr (Or.inr hadding))
    · have hwatched : c ∈ s.watched := (hinv.watched c).2 ⟨Option.isSome_iff_exists.2 ⟨j, hj⟩, hadding⟩
      exact Or.inl (Finset.mem_union_right _ (Finset.mem_filter.2 ⟨hwatched, hj⟩))
  · exact (h hrun hrun' c j hj (hsame j hne hreadable)).imp (Finset.mem_union_left _ ·) id

/-- a client is closed: the others keep what they have -/
theorem close_attended (h : Attended s) {c i : ℕ} {pc : Pc}
    (hfrom : s.pc = .adding c ∧ pc = .listening ∨ s.pc = .reading c ∧ pc = .handling) : Attended (s.close c i pc) := by
  intro _ _ d j hd hreadable
  obtain ⟨hne, hd⟩ := update_none_eq_some.1 hd
  have hbefore : d ∈ s.edge ∨ d ∈ s.batch := by
    rcases hfrom with ⟨hpc, -⟩ | ⟨hpc, -⟩
    · exact h.pending hpc (by simp) (by simp) (by simp [hne.symm]) hd hreadable
    · exact h.pending hpc (by simp) (by simp [hne.symm]) (by simp) hd hreadable
  rcases hbefore with hedge | hbatch
  · exact Or.inl (Finset.mem_erase.2 ⟨hne, hedge⟩)
  · exact Or.inr (Or.inl hbatch)

theorem step_attended (h : Attended s) (hinv : Inv fds s) (hstep : step fds s a = some s') : Attended s' := by
  cases step_effect hstep with
  | connected => exact h
  | @arrived i bytes hlive =>
    refine notice_attended (i := i) h hinv rfl rfl rfl rfl fun j hne hreadable => ?_
    change Function.update s.unread i (s.unread i ++ bytes) j ≠ [] ∨ s.hungUp j = true at hreadable
    rwa [Function.update_of_ne hne] at hreadable
  | @hungUp i hlive =>
    refine notice_attended (i := i) h hinv rfl rfl rfl rfl fun j hne hreadable => ?_
    change s.unread j ≠ [] ∨ Function.update s.hungUp i true j = true at hreadable
    rwa [Function.update_of_ne hne] at hreadable
  | counted => exact h
  | @reported events hpc hnodup hready =>
    intro _ _ c i howner hreadable
    have hempty := hinv.waiting hpc
    rcases h.pending hpc (by simp) (by simp) (by simp) howner hreadable with hedge | hbatch
    · by_cases hmem : c ∈ events
      · exact Or.inr (Or.inl hmem)
      · exact Or.inl (Finset.mem_sdiff.2 ⟨hedge, fun hin => hmem (List.mem_toFinset.1 hin)⟩)
    · rw [hempty] at hbatch
      exact absurd hbatch List.not_mem_nil
  | waitFailed => exact fun hrun => absurd rfl hrun
  | allHandled hpc hbatch =>
    intro _ _ c i howner hreadable
    exact (h.pending hpc (by simp) (by simp) (by simp) howner hreadable).imp id Or.inl
  | @served fd rest pc d e g hpc hbatch hfd hnext =>
    intro _ _ c i howner hreadable
    rcases h.pending hpc (by simp) (by simp) (by simp) howner hreadable with hedge | hmem
    · exact Or.inl hedge
    · rw [hbatch, List.mem_cons] at hmem
      rcases hmem with rfl | hmem
      · exact absurd hfd.mem (hinv.apart c (Option.isSome_iff_exists.2 ⟨i, howner⟩))
      · exact Or.inr (Or.inl hmem)
  | signalled => exact fun hrun => absurd rfl hrun
  | @client fd rest hpc hbatch hfd =>
    intro _ _ c i howner hreadable
    rcases h.pending hpc (by simp) (by simp) (by simp) howner hreadable with hedge | hmem
    · exact Or.inl hedge
    · rw [hbatch, List.mem_cons] at hmem
      rcases hmem with rfl | hmem
      · exact Or.inr (Or.inr (Or.inl rfl))
      · exact Or.inr (Or.inl hmem)
  | back hpc =>
    intro _ _ c i howner hreadable
    have hbefore : c ∈ s.edge ∨ c ∈ s.batch := by
      rcases hpc with hpc | hpc <;> exact h.pending hpc (by simp) (by simp) (by simp) howner hreadable
    exact hbefore.imp id Or.inl
  | @adopted c i rest hpc hbacklog hclosed hc =>
    intro _ _ d j howner hreadable
    rcases update_some_eq_some.1 howner with ⟨rfl, -⟩ | ⟨-, howner⟩
    · exact Or.inr (Or.inr (Or.inr rfl))
    · exact (h.pending hpc (by simp) (by simp) (by simp) howner hreadable).imp id Or.inl
  | @watched c i hpc howner =>
    intro _ _ d j hd hreadable
    rcases eq_or_ne d c with rfl | hne
    · obtain rfl := Option.some.inj (howner.symm.trans hd)
      refine Or.inl ?_
      change d ∈ if decide (s.readable i) = true then insert d s.edge else s.edge.erase d
      have hread : s.readable i := hreadable
      rw [if_pos (decide_eq_true hread)]
      exact Finset.mem_insert_self _ _
    · rcases h.pending hpc (by simp) (by simp) (by simp [hne.symm]) hd hreadable with hedge | hmem
      · refine Or.inl ?_
        change d ∈ if decide (s.readable i) = true then insert c s.edge else s.edge.erase c
        split_ifs
        · exact Finset.mem_insert_of_mem hedge
        · exact Finset.mem_erase.2 ⟨hne, hedge⟩
      · exact Or.inr (Or.inl hmem)
  | closed hfrom howner => exact close_attended h hfrom
  | @printed c i n hpc howner hn =>
    intro hrun hrun' d j hd hreadable
    rcases eq_or_ne d c with rfl | hne
    · exact Or.inr (Or.inr (Or.inl hpc))
    · have hother : j ≠ i := by
        rintro rfl
        exact hne (hinv.ids.inj d c j hd howner)
      refine h hrun hrun' d j hd ?_
      change Function.update s.unread i ((s.unread i).drop n) j ≠ [] ∨ s.hungUp j = true at hreadable
      rwa [Function.update_of_ne hother] at hreadable
  | @ended c i n hpc howner hunread hend => exact close_attended (i := i) h (Or.inr ⟨hpc, rfl⟩)
  | @drained c i n hpc howner hempty =>
    intro _ _ d j hd hreadable
    rcases h.running hpc (by simp) hd hreadable with hedge | hmem | heq | heq
    · exact Or.inl hedge
    · exact Or.inr (Or.inl hmem)
    · obtain rfl := Pc.reading.inj heq
      obtain rfl := Option.some.inj (howner.symm.trans hd)
      exact absurd hreadable hempty
    · cases heq
  | bad hpc howner => exact absurd howner (hinv.owned hpc)
  | shut hpc => exact fun _ hrun => absurd rfl hrun

theorem run_whole {acts : List Act} (hrun : run fds acts = some s) : Inv fds s ∧ Whole s ∧ Attended s := by
  refine Machine.exec_inv (P := fun s => Inv fds s ∧ Whole s ∧ Attended s) ?_ hrun ⟨init_inv, ?_, fun _ _ c i hc => by cases hc⟩
  · intro s a s' hstep h
    exact ⟨step_inv h.1 hstep, step_whole h.2.1 h.1 hstep, step_attended h.2.2 h.1 hstep⟩
  · exact ⟨fun _ => ⟨[], ⟨rfl, fun _ h => absurd h List.not_mem_nil⟩, rfl⟩, fun i hi => absurd hi (Finset.notMem_empty i)⟩

/-- **Nobody is missed.** In every run: what has been read of a connection, piece by piece, and what is unread are together what
its peer has sent, in order; where the server has seen the end, nothing is unread. A line has been printed of each piece, of 1 to
512 bytes, with its length and its bytes up to the first zero byte. When the loop is at `epoll_wait`, every open client that has
bytes unread or is at its end may be reported, although its edge is reported only once, and so may the listening socket if a
connection waits. -/
theorem nobody_missed (fds : Fds) (acts : List Act) (s : St) (hrun : run fds acts = some s) :
    (∀ i, ∃ pieces, Pieces s i pieces ∧ pieces.flatten ++ s.unread i = s.sent i ∧
      (i ∈ s.finished → pieces.flatten = s.sent i)) ∧
      (s.pc = .waiting → (∀ c i, s.owner c = some i → s.readable i → (step fds s (.epollWait [c])).isSome) ∧
        (s.backlog ≠ [] → (step fds s (.epollWait [fds.us])).isSome)) := by
  obtain ⟨hinv, hwhole, hattended⟩ := run_whole hrun
  refine ⟨fun i => ?_, fun hpc => ⟨fun c i howner hreadable => ?_, fun hbacklog => ?_⟩⟩
  · obtain ⟨pieces, hpieces, hsplit⟩ := hwhole.split i
    refine ⟨pieces, hpieces, hsplit, fun hi => ?_⟩
    rw [← hsplit, (hwhole.finished i hi).1, List.append_nil]
  · have hsome : (s.owner c).isSome := by
      rw [howner]
      rfl
    have hedge : c ∈ s.edge := by
      rcases hattended.pending hpc (by simp) (by simp) (by simp) howner hreadable with hedge | hmem
      · exact hedge
      · rw [hinv.waiting hpc] at hmem
        exact absurd hmem List.not_mem_nil
    have hwatched : c ∈ s.watched := (hinv.watched c).2 ⟨hsome, by simp [hpc]⟩
    have hunknown := hinv.apart c hsome
    simp only [Fds.all, List.mem_cons, List.not_mem_nil, or_false, not_or] at hunknown
    have hready : s.ready fds c := by
      unfold St.ready
      rw [if_neg hunknown.1, if_neg hunknown.2.1, if_neg hunknown.2.2.1, if_neg hunknown.2.2.2.1]
      exact ⟨hwatched, hedge⟩
    simp [step, hpc, hready]
  · have hus : fds.us ≠ fds.nl := by
      have hdistinct := fds.distinct
      simp only [List.nodup_cons, List.mem_cons, not_or] at hdistinct
      exact Ne.symm hdistinct.1.1
    have hready : s.ready fds fds.us := by
      unfold St.ready
      rw [if_neg hus, if_pos rfl]
      exact hbacklog
    simp [step, hpc, hready]

end Runs

/-- descriptors as `main` gets them -/
def someFds : Fds := ⟨4, 5, 6, 7, 3, by decide⟩

/-- two clients; the first is read and closed, and a third gets its descriptor in the same batch, before the second is read -/
def reused : List Act :=
  [.connect, .connect, .epollWait [5], .next, .accept 8, .add true, .accept 9, .add true, .acceptFails, .next,
    .arrive 0 [97, 0, 98], .hangUp 0, .arrive 1 [99], .connect, .epollWait [8, 5, 9], .next, .read 3, .read 1, .next,
    .accept 8, .arrive 2 [100], .add true, .accept 0, .next, .read 1, .read 1, .next]

theorem reused_state : (run someFds reused).map (fun s => (s.pc, s.owner 8, s.unread 2)) = some (.waiting, some 2, [100]) := by
  decide +kernel

theorem descriptors_sound_reused : ∃ s, run someFds reused = some s ∧ s.owner 8 = some 2 ∧ s.badFd = false := by
  obtain ⟨s, hrun, heq⟩ := Option.map_eq_some_iff.1 reused_state
  obtain ⟨-, hrest⟩ := Prod.mk.inj heq
  exact ⟨s, hrun, (Prod.mk.inj hrest).1, (descriptors_sound someFds reused s hrun).1⟩

theorem nobody_missed_reused : ∃ s, run someFds reused = some s ∧ s.pc = .waiting ∧ s.unread 2 = [100] ∧
    (step someFds s (.epollWait [8])).isSome ∧ ∃ pieces, Pieces s 2 pieces ∧ pieces.flatten ++ [100] = s.sent 2 := by
  obtain ⟨s, hrun, heq⟩ := Option.map_eq_some_iff.1 reused_state
  obtain ⟨hpc, hrest⟩ := Prod.mk.inj heq
  obtain ⟨howner, hunread⟩ := Prod.mk.inj hrest
  obtain ⟨hbytes, hedges⟩ := nobody_missed someFds reused s hrun
  obtain ⟨pieces, hpieces, hsplit, -⟩ := hbytes 2
  rw [hunread] at hsplit
  refine ⟨s, hrun, hpc, hunread, (hedges hpc).1 8 2 howner (Or.inl ?_), pieces, hpieces, hsplit⟩
  rw [hunread]
  exact List.cons_ne_nil _ _

/-- three bytes of the first client are read, and one is seen -/
example : (run someFds reused).map (fun s => s.printed 0) = some [(3, [97])] := by decide +kernel

end InterviewPrep.EventLoop
