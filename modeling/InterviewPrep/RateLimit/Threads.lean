/-
The sliding-window limiter of pureStorage/rateLimiter.cpp (`RateLimiter`), called by any number of threads.

`allowRequest` reads the clock before it takes the lock. The two are steps of their own here: a thread reads the clock, and
enters the locked section later with what it read. The clock does not go backwards, but threads may enter in another order
than they read. The loop at the front of the deque takes the front for the oldest and `now` for the latest: a call with a
late stamp drops times, and a call with an earlier stamp, for which they would still count, finds them gone.

- `limit_held`: if no call enters with a stamp that is at most `window` milliseconds away from a grant already dropped for
  its key, no interval of `window` milliseconds has more than `max_requests` grants for a key. Calls that enter in the order
  of their stamps meet this;
- `late_entry` is a run with three grants where two are allowed.
-/
import InterviewPrep.RateLimit.Sequential

namespace InterviewPrep.RateLimit.Threads

open InterviewPrep.RateLimit

/-! ## Model -/

structure St (ι Key : Type) where
  limiter : RateLimiter Key
  /-- the last reading -/
  clock : ℤ
  /-- key and reading of a thread that has not entered yet -/
  stamp : ι → Option (Key × ℤ)
  /-- calls that have entered, in this order -/
  log : List (Out Key)

inductive Act (ι Key : Type) where
  | read (i : ι) (key : Key) (now : ℤ)
  | enter (i : ι)

variable {ι Key : Type} [DecidableEq ι] [DecidableEq Key]

namespace St

def init (maxReq windowMs : ℕ) (clock : ℤ) : St ι Key := ⟨.make maxReq windowMs, clock, fun _ => none, []⟩

def read (s : St ι Key) (i : ι) (key : Key) (now : ℤ) : St ι Key :=
  { s with clock := now, stamp := Function.update s.stamp i (some (key, now)) }

/-- the locked section -/
def enter (s : St ι Key) (i : ι) (call : Key × ℤ) : St ι Key :=
  { s with
    limiter := (step s.limiter call).1
    stamp := Function.update s.stamp i none
    log := s.log ++ [(step s.limiter call).2] }

/-- grants for a key that are no longer in its deque -/
def dropped (s : St ι Key) (k : Key) : List ℤ :=
  (grants k s.log).take ((grants k s.log).length - (s.limiter.logs k).length)

end St

def step (s : St ι Key) : Act ι Key → Option (St ι Key)
  | .read i key now => if s.stamp i = none ∧ s.clock ≤ now then some (s.read i key now) else none
  | .enter i => (s.stamp i).map (s.enter i)

def run (maxReq windowMs : ℕ) (clock : ℤ) (acts : List (Act ι Key)) : Option (St ι Key) :=
  Machine.exec step (.init maxReq windowMs clock) acts

/-- no grant already dropped for the key is near the stamp -/
def InTime (s : St ι Key) : Act ι Key → Prop
  | .read _ _ _ => True
  | .enter i => ∀ key now, s.stamp i = some (key, now) →
      ∀ t ∈ s.dropped key, (s.limiter.window * 1000000 : ℤ) < |now - t|

/-! ## Every run -/

/-- the deque of a key is the end of its grants, and what comes before was too old for a call that has entered -/
structure Inv (maxReq windowMs : ℕ) (s : St ι Key) : Prop where
  maxRequests : s.limiter.maxRequests = maxReq
  window : s.limiter.window = windowMs
  split : ∀ k, grants k s.log = s.dropped k ++ s.limiter.logs k
  old : ∀ k, ∀ t ∈ s.dropped k, ∃ o ∈ s.log, o.key = k ∧ (windowMs : ℤ) < elapsed o.now t

omit [DecidableEq ι] in
theorem dropped_eq {s : St ι Key} {k : Key} {gone : List ℤ} (h : grants k s.log = gone ++ s.limiter.logs k) :
    s.dropped k = gone := by
  rw [St.dropped, h, List.length_append, Nat.add_sub_cancel, List.take_left]

variable {maxReq windowMs : ℕ} {s s' : St ι Key} {i : ι}

/-- what the locked section drops is old for its call -/
theorem enter_split (h : Inv maxReq windowMs s) (key : Key) (now : ℤ) (k : Key) :
    ∃ gone, grants k (s.enter i (key, now)).log = gone ++ (s.enter i (key, now)).limiter.logs k ∧
      ∀ t ∈ gone, t ∈ s.dropped k ∨ k = key ∧ (windowMs : ℤ) < elapsed now t := by
  rcases eq_or_ne k key with rfl | hne
  · have hsplit := h.split k
    rw [log_eq s.limiter k now] at hsplit
    refine ⟨s.dropped k ++ (s.limiter.logs k).takeWhile fun t => elapsed now t > s.limiter.window, ?_, ?_⟩
    · rcases allowRequest_cases s.limiter k now with ⟨-, hallow⟩ | ⟨-, hallow⟩
      · have hlog : grants k (s.enter i (k, now)).log = grants k s.log ++ [now] := by
          simp [grants, St.enter, RateLimit.step, hallow]
        rw [hlog, hsplit]
        simp [St.enter, RateLimit.step, hallow, RateLimiter.setLog]
      · have hlog : grants k (s.enter i (k, now)).log = grants k s.log := by
          simp [grants, St.enter, RateLimit.step, hallow]
        rw [hlog, hsplit]
        simp [St.enter, RateLimit.step, hallow, RateLimiter.setLog]
    · intro t ht
      rcases List.mem_append.1 ht with hold | hnew
      · exact Or.inl hold
      · exact Or.inr ⟨rfl, h.window ▸ old_of_dropped hnew⟩
  · refine ⟨s.dropped k, ?_, fun t ht => Or.inl ht⟩
    have hlog : grants k (s.enter i (key, now)).log = grants k s.log := by
      simp [grants, St.enter, RateLimit.step, hne.symm]
    have hdeque : (s.enter i (key, now)).limiter.logs k = s.limiter.logs k := by
      rcases allowRequest_cases s.limiter key now with ⟨-, hallow⟩ | ⟨-, hallow⟩ <;>
        simp [St.enter, RateLimit.step, hallow, RateLimiter.setLog, hne]
    rw [hlog, hdeque, h.split k]

theorem enter_inv (h : Inv maxReq windowMs s) (key : Key) (now : ℤ) : Inv maxReq windowMs (s.enter i (key, now)) := by
  obtain ⟨hmax, hwindow⟩ := step_parameters s.limiter (key, now)
  refine ⟨hmax.trans h.maxRequests, hwindow.trans h.window, fun k => ?_, fun k t ht => ?_⟩
  · obtain ⟨gone, hsplit, -⟩ := enter_split (i := i) h key now k
    rw [dropped_eq hsplit, hsplit]
  · obtain ⟨gone, hsplit, hgone⟩ := enter_split (i := i) h key now k
    rw [dropped_eq hsplit] at ht
    rcases hgone t ht with hbefore | ⟨rfl, hold⟩
    · obtain ⟨o, ho, hkey, hage⟩ := h.old k t hbefore
      exact ⟨o, List.mem_append_left _ ho, hkey, hage⟩
    · exact ⟨_, List.mem_append_right _ (List.mem_singleton_self _), rfl, hold⟩

theorem step_inv (s : St ι Key) (a : Act ι Key) (s' : St ι Key) (hstep : step s a = some s')
    (h : Inv maxReq windowMs s) : Inv maxReq windowMs s' := by
  cases a with
  | read i key now =>
    rw [step] at hstep
    split_ifs at hstep
    obtain rfl := Option.some.inj hstep
    exact ⟨h.maxRequests, h.window, h.split, h.old⟩
  | enter i =>
    obtain ⟨⟨key, now⟩, -, rfl⟩ := Option.map_eq_some_iff.1 hstep
    exact enter_inv h key now

omit [DecidableEq ι] in
theorem init_inv (clock : ℤ) : Inv maxReq windowMs (.init maxReq windowMs clock : St ι Key) where
  maxRequests := rfl
  window := rfl
  split _ := rfl
  old k t ht := by simp [St.dropped, St.init, grants] at ht

omit [DecidableEq ι] in
/-- a call that no later stamp of its key has overtaken -/
theorem inTime_of_order (h : Inv maxReq windowMs s)
    (horder : ∀ key now, s.stamp i = some (key, now) → ∀ o ∈ s.log, o.key = key → o.now ≤ now) :
    InTime s (.enter i) := by
  intro key now hstamp t ht
  obtain ⟨o, ho, hkey, hage⟩ := h.old key t ht
  have hle := horder key now hstamp o ho hkey
  rw [h.window]
  apply not_near
  rw [lt_elapsed] at hage ⊢
  omega

/-! ## The limit -/

theorem enter_limited (h : Inv maxReq windowMs s) {key : Key} {now : ℤ}
    (hintime : ∀ t ∈ s.dropped key, (s.limiter.window * 1000000 : ℤ) < |now - t|)
    (hlimited : ∀ k, Limited maxReq (windowMs * 1000000) (grants k s.log)) (k : Key) :
    Limited maxReq (windowMs * 1000000) (grants k (s.enter i (key, now)).log) := by
  by_cases hgrant : k = key ∧ (s.limiter.allowRequest key now).2 = true
  · obtain ⟨rfl, hgranted⟩ := hgrant
    have hlog : grants k (s.enter i (k, now)).log = grants k s.log ++ [now] := by
      simp [grants, St.enter, RateLimit.step, hgranted]
    have hroom := (allowRequest_granted s.limiter k now).1 hgranted
    have hbefore := hlimited k
    rw [← h.maxRequests, ← h.window] at hbefore ⊢
    rw [hlog]
    exact allowRequest_limited hbefore (h.split k) hintime hroom
  · have hlog : grants k (s.enter i (key, now)).log = grants k s.log := by
      have hnot : ¬(key = k ∧ (s.limiter.allowRequest key now).2 = true) := fun hboth => hgrant ⟨hboth.1.symm, hboth.2⟩
      simp [grants, St.enter, RateLimit.step, hnot]
    rw [hlog]
    exact hlimited k

/-- **The limit under threads.** In every run in which no call enters with a stamp at most `windowMs` milliseconds from a
grant already dropped for its key: for every key, every interval of `windowMs` milliseconds has at most `maxReq` grants.
A call meets this if every call for its key that has entered has a stamp not later than its own. -/
theorem limit_held (maxReq windowMs : ℕ) (clock : ℤ) (acts : List (Act ι Key)) (s : St ι Key)
    (hrun : run maxReq windowMs clock acts = some s) :
    (Machine.Meets step InTime (.init maxReq windowMs clock) acts →
      ∀ k (a : ℤ), (grants k s.log).countP (fun t => a ≤ t ∧ t ≤ a + windowMs * 1000000) ≤ maxReq) ∧
      ∀ i, (∀ key now, s.stamp i = some (key, now) → ∀ o ∈ s.log, o.key = key → o.now ≤ now) → InTime s (.enter i) := by
  refine ⟨fun hmeets => ?_, fun i => inTime_of_order (Machine.exec_inv step_inv hrun (init_inv clock))⟩
  have hboth : Inv maxReq windowMs s ∧ ∀ k, Limited maxReq (windowMs * 1000000) (grants k s.log) := by
    refine Machine.exec_inv_of_meets
      (P := fun s => Inv maxReq windowMs s ∧ ∀ k, Limited maxReq (windowMs * 1000000) (grants k s.log)) ?_ hrun hmeets
      ⟨init_inv clock, fun k => limited_nil _ _⟩
    intro s a s' hstep hintime ⟨hinv, hlimited⟩
    refine ⟨step_inv s a s' hstep hinv, ?_⟩
    cases a with
    | read i key now =>
      rw [step] at hstep
      split_ifs at hstep
      obtain rfl := Option.some.inj hstep
      exact hlimited
    | enter i =>
      obtain ⟨⟨key, now⟩, hstamp, rfl⟩ := Option.map_eq_some_iff.1 hstep
      exact enter_limited hinv (hintime key now hstamp) hlimited
  intro k a
  exact hboth.2 k a (a + windowMs * 1000000) (by omega)

/-- two threads, the second enters first -/
def crossing : List (Act ℕ ℕ) := [.read 0 0 0, .read 1 0 5000000, .enter 1, .enter 0]

theorem crossing_inTime : Machine.Meets step InTime (.init 2 10 0) crossing := by
  -- nothing is dropped
  refine .cons rfl trivial (.cons rfl trivial (.cons rfl ?_ (.cons rfl ?_ trivial)))
  · intro key now _ t ht
    simp [St.dropped, St.read, St.init, grants] at ht
  · intro key now hstamp t ht
    obtain ⟨rfl, rfl⟩ := Prod.mk.inj (Option.some.inj (show some (0, 0) = some (key, now) from hstamp))
    exact absurd (show t ∈ [] from ht) List.not_mem_nil

theorem limit_held_crossing : ∃ s, run 2 10 0 crossing = some s ∧ grants 0 s.log = [5000000, 0] ∧
    ∀ k (a : ℤ), (grants k s.log).countP (fun t => a ≤ t ∧ t ≤ a + (10 : ℕ) * 1000000) ≤ 2 :=
  ⟨_, rfl, by decide, (limit_held 2 10 0 crossing _ rfl).1 crossing_inTime⟩

/-- thread 1 reads the clock at 5 ms and enters after a call of 12 ms -/
def overtaken : List (Act ℕ ℕ) :=
  [.read 0 0 0, .enter 0, .read 0 0 1000000, .enter 0, .read 1 0 5000000, .read 0 0 12000000, .enter 0, .enter 1]

/-- **A late entry.** Two requests in ten milliseconds are allowed. Calls at 0 and 1 ms are granted; the call of 12 ms drops
both; then the call of 5 ms enters and is granted: three grants from 0 to 10 ms. -/
theorem late_entry : ∃ s, run 2 10 0 overtaken = some s ∧
    2 < (grants 0 s.log).countP (fun t => 0 ≤ t ∧ t ≤ 0 + 10 * 1000000) :=
  ⟨_, rfl, by decide⟩

end InterviewPrep.RateLimit.Threads
