/-
The sliding-window limiter of pureStorage/rateLimiter.cpp (`RateLimiter`), called by one thread.

For each key the limiter keeps a deque of the times of granted calls. A call at `now` drops times from the front while they
are more than `window` milliseconds old, and is granted if fewer than `max_requests` are left. Times are integer
nanoseconds; `duration_cast` truncates the age to milliseconds.

What is dropped is lost, so the limiter decides on part of the history. As long as the clock readings do not decrease, that
part is enough:
- `granted_iff_window`: a call is granted exactly if fewer than `max_requests` of all earlier grants for its key are at most
  `window` milliseconds old; no interval of that length has more than `max_requests` grants; other keys do not matter.
`Limited`, `allowRequest_limited` are also used for calls from several threads.
-/
import InterviewPrep.Core.Machine

namespace InterviewPrep.RateLimit

/-! ## Model -/

structure RateLimiter (Key : Type) where
  maxRequests : ℕ
  /-- in milliseconds -/
  window : ℕ
  logs : Key → List ℤ

/-- `duration_cast<milliseconds>(now - t)` -/
def elapsed (now t : ℤ) : ℤ := (now - t).tdiv 1000000

namespace RateLimiter

variable {Key : Type} [DecidableEq Key]

/-- the constructor; a key without an entry has an empty deque -/
def make (maxReq windowMs : ℕ) : RateLimiter Key := ⟨maxReq, windowMs, fun _ => []⟩

/-- the deque after the loop -/
def pruned (l : RateLimiter Key) (key : Key) (now : ℤ) : List ℤ :=
  (l.logs key).dropWhile fun t => elapsed now t > l.window

def setLog (l : RateLimiter Key) (key : Key) (q : List ℤ) : RateLimiter Key :=
  { l with logs := Function.update l.logs key q }

def allowRequest (l : RateLimiter Key) (key : Key) (now : ℤ) : RateLimiter Key × Bool :=
  let q := l.pruned key now
  if q.length < l.maxRequests then (l.setLog key (q ++ [now]), true) else (l.setLog key q, false)

end RateLimiter

/-- key, clock reading, answer -/
structure Out (Key : Type) where
  key : Key
  now : ℤ
  granted : Bool
  deriving DecidableEq

variable {Key : Type} [DecidableEq Key]

def step (l : RateLimiter Key) (call : Key × ℤ) : RateLimiter Key × Out Key :=
  ((l.allowRequest call.1 call.2).1, ⟨call.1, call.2, (l.allowRequest call.1 call.2).2⟩)

def run (maxReq windowMs : ℕ) (calls : List (Key × ℤ)) : RateLimiter Key × List (Out Key) :=
  Machine.runTotal step (.make maxReq windowMs) calls

/-- times of the granted calls for a key, in the order of the calls -/
def grants (k : Key) (log : List (Out Key)) : List ℤ :=
  log.filterMap fun o => if o.key = k ∧ o.granted = true then some o.now else none

/-- all answers for a key -/
def answers (k : Key) (log : List (Out Key)) : List (Out Key) := log.filter fun o => o.key = k

/-- at most `m` of the times lie in an interval of length `w` -/
def Limited (m : ℕ) (w : ℤ) (times : List ℤ) : Prop :=
  ∀ a b, b - a ≤ w → times.countP (fun t => a ≤ t ∧ t ≤ b) ≤ m

/-! ## Ages -/

/-- truncation: more than `window` milliseconds are at least `window + 1` -/
theorem lt_elapsed {now t : ℤ} {window : ℕ} : (window : ℤ) < elapsed now t ↔ (window + 1) * 1000000 ≤ now - t := by
  unfold elapsed
  rcases le_total 0 (now - t) with hpos | hneg
  · rw [Int.tdiv_eq_ediv_of_nonneg hpos]
    omega
  · -- a stamp from the future has a negative age
    have hage : (now - t).tdiv 1000000 = -((t - now) / 1000000) := by
      rw [← neg_sub t now, Int.neg_tdiv, Int.tdiv_eq_ediv_of_nonneg (by omega)]
    rw [hage]
    omega

theorem floor_le {now t : ℤ} {window : ℕ} : (now - t) / 1000000 ≤ window ↔ ¬(window : ℤ) < elapsed now t := by
  rw [lt_elapsed]
  omega

theorem not_near {now t : ℤ} {window : ℕ} (hold : (window : ℤ) < elapsed now t) : (window * 1000000 : ℤ) < |now - t| := by
  have hage := lt_elapsed.1 hold
  exact (show (window * 1000000 : ℤ) < now - t by omega).trans_le (le_abs_self _)

/-! ## Grants -/

theorem limited_nil (m : ℕ) (w : ℤ) : Limited m w [] := fun _ _ _ => Nat.zero_le m

/-- one more time, with fewer than `m` near it -/
theorem Limited.concat {m : ℕ} {w now : ℤ} {times : List ℤ} (h : Limited m w times)
    (hnear : times.countP (fun t => |now - t| ≤ w) < m) : Limited m w (times ++ [now]) := by
  intro a b hab
  rw [List.countP_append, List.countP_singleton]
  by_cases hin : a ≤ now ∧ now ≤ b
  · -- whatever shares the interval with `now` is near it
    have hmono : times.countP (fun t => a ≤ t ∧ t ≤ b) ≤ times.countP (fun t => |now - t| ≤ w) := by
      apply List.countP_mono_left
      intro t _ ht
      simp only [decide_eq_true_eq] at ht ⊢
      rw [abs_le]
      constructor <;> linarith [ht.1, ht.2, hin.1, hin.2]
    have hone : (if decide (a ≤ now ∧ now ≤ b) = true then 1 else 0) ≤ 1 := by split_ifs <;> omega
    omega
  · have hzero : (if decide (a ≤ now ∧ now ≤ b) = true then 1 else 0) = 0 := if_neg (by simpa using hin)
    rw [hzero, Nat.add_zero]
    exact h a b hab

variable {l : RateLimiter Key} {k : Key} {now : ℤ} {times gone : List ℤ}

omit [DecidableEq Key] in
theorem log_eq (l : RateLimiter Key) (k : Key) (now : ℤ) :
    l.logs k = ((l.logs k).takeWhile fun t => elapsed now t > l.window) ++ l.pruned k now :=
  List.takeWhile_append_dropWhile.symm

omit [DecidableEq Key] in
/-- the times dropped are old -/
theorem old_of_dropped {t : ℤ} (ht : t ∈ (l.logs k).takeWhile fun t => elapsed now t > l.window) :
    (l.window : ℤ) < elapsed now t := by
  simpa using List.all_eq_true.1 List.all_takeWhile t ht

/-- what `allowRequest` does to the deque of its key -/
theorem allowRequest_cases (l : RateLimiter Key) (k : Key) (now : ℤ) :
    ((l.pruned k now).length < l.maxRequests ∧ l.allowRequest k now = (l.setLog k (l.pruned k now ++ [now]), true)) ∨
      (¬(l.pruned k now).length < l.maxRequests ∧ l.allowRequest k now = (l.setLog k (l.pruned k now), false)) := by
  by_cases hroom : (l.pruned k now).length < l.maxRequests
  · exact Or.inl ⟨hroom, if_pos hroom⟩
  · exact Or.inr ⟨hroom, if_neg hroom⟩

theorem allowRequest_granted (l : RateLimiter Key) (k : Key) (now : ℤ) :
    (l.allowRequest k now).2 = true ↔ (l.pruned k now).length < l.maxRequests := by
  rcases allowRequest_cases l k now with ⟨hroom, hallow⟩ | ⟨hfull, hallow⟩
  · simp [hallow, hroom]
  · simp [hallow, hfull]

omit [DecidableEq Key] in
/-- a grant keeps the limit, if no time dropped earlier is near -/
theorem allowRequest_limited (h : Limited l.maxRequests (l.window * 1000000) times) (htimes : times = gone ++ l.logs k)
    (hgone : ∀ t ∈ gone, (l.window * 1000000 : ℤ) < |now - t|) (hroom : (l.pruned k now).length < l.maxRequests) :
    Limited l.maxRequests (l.window * 1000000) (times ++ [now]) := by
  apply h.concat
  have hfar : ∀ old : List ℤ, (∀ t ∈ old, (l.window * 1000000 : ℤ) < |now - t|) →
      old.countP (fun t => |now - t| ≤ l.window * 1000000) = 0 := by
    intro old hold
    rw [List.countP_eq_zero]
    intro t ht
    simpa using hold t ht
  rw [htimes, log_eq l k now, List.countP_append, List.countP_append, hfar gone hgone,
    hfar _ fun t ht => not_near (old_of_dropped ht), Nat.zero_add, Nat.zero_add]
  exact List.countP_le_length.trans_lt hroom

/-! ## Runs with a clock that does not go backwards -/

/-- the grants for a key: those dropped, each too old for some earlier call, and those in the deque -/
structure Inv (k : Key) (l : RateLimiter Key) (calls : List (Key × ℤ)) (times : List ℤ) : Prop where
  sorted : times.Pairwise (· ≤ ·)
  called : ∀ t ∈ times, ∃ c ∈ calls, t = c.2
  split : ∃ gone, times = gone ++ l.logs k ∧ ∀ t ∈ gone, ∃ c ∈ calls, (l.window : ℤ) < elapsed c.2 t
  limited : Limited l.maxRequests (l.window * 1000000) times

omit [DecidableEq Key] in
/-- in a sorted deque the loop drops all that is old -/
theorem pruned_eq_filter {l : RateLimiter Key} (hsorted : (l.logs k).Pairwise (· ≤ ·)) (now : ℤ) :
    l.pruned k now = (l.logs k).filter fun t => ¬elapsed now t > l.window := by
  unfold RateLimiter.pruned
  generalize l.logs k = q at hsorted
  induction q with
  | nil => rfl
  | cons t q ih =>
    rw [List.pairwise_cons] at hsorted
    by_cases hold : elapsed now t > l.window
    · rw [List.dropWhile_cons_of_pos (by simpa using hold), List.filter_cons_of_neg (by simpa using hold)]
      exact ih hsorted.2
    · rw [List.dropWhile_cons_of_neg (by simpa using hold), eq_comm, List.filter_eq_self]
      intro u hu
      have hle : t ≤ u := by
        rcases List.mem_cons.1 hu with rfl | hmem
        · exact le_rfl
        · exact hsorted.1 u hmem
      rw [gt_iff_lt, lt_elapsed] at hold
      rw [decide_eq_true_eq, gt_iff_lt, lt_elapsed]
      omega

variable {calls : List (Key × ℤ)}

omit [DecidableEq Key] in
/-- what was dropped stays old -/
theorem old_later {t : ℤ} (hold : ∃ c ∈ calls, (l.window : ℤ) < elapsed c.2 t) (hnow : ∀ c ∈ calls, c.2 ≤ now) :
    (l.window : ℤ) < elapsed now t := by
  obtain ⟨c, hc, hage⟩ := hold
  have hle := hnow c hc
  rw [lt_elapsed] at hage ⊢
  omega

omit [DecidableEq Key] in
/-- the length of the deque after the loop is the number of all earlier grants that count -/
theorem Inv.length_pruned (h : Inv k l calls times) (hnow : ∀ c ∈ calls, c.2 ≤ now) :
    (l.pruned k now).length = times.countP fun t => (now - t) / 1000000 ≤ l.window := by
  obtain ⟨gone, htimes, hgone⟩ := h.split
  have hsorted : (l.logs k).Pairwise (· ≤ ·) := by
    have hall := h.sorted
    rw [htimes, List.pairwise_append] at hall
    exact hall.2.1
  have hnone : gone.countP (fun t => (now - t) / 1000000 ≤ l.window) = 0 := by
    rw [List.countP_eq_zero]
    intro t ht
    rw [decide_eq_true_eq, floor_le, not_not]
    exact old_later (hgone t ht) hnow
  rw [pruned_eq_filter hsorted, htimes, List.countP_append, hnone, Nat.zero_add, List.countP_eq_length_filter]
  congr 2
  funext t
  rw [decide_eq_decide, floor_le]

omit [DecidableEq Key] in
theorem Inv.later (h : Inv k l calls times) (c : Key × ℤ) : Inv k l (calls ++ [c]) times where
  sorted := h.sorted
  called t ht := by
    obtain ⟨d, hd, heq⟩ := h.called t ht
    exact ⟨d, List.mem_append_left _ hd, heq⟩
  split := by
    obtain ⟨gone, htimes, hgone⟩ := h.split
    refine ⟨gone, htimes, fun t ht => ?_⟩
    obtain ⟨d, hd, hold⟩ := hgone t ht
    exact ⟨d, List.mem_append_left _ hd, hold⟩
  limited := h.limited

/-- the loop moves times from the deque to those dropped -/
theorem Inv.prune (h : Inv k l calls times) (now : ℤ) :
    Inv k (l.setLog k (l.pruned k now)) (calls ++ [(k, now)]) times := by
  have hlater := h.later (k, now)
  obtain ⟨gone, htimes, hgone⟩ := hlater.split
  refine ⟨h.sorted, hlater.called, ⟨gone ++ (l.logs k).takeWhile fun t => elapsed now t > l.window, ?_, ?_⟩, h.limited⟩
  · show times = _ ++ Function.update l.logs k (l.pruned k now) k
    rw [Function.update_self, List.append_assoc, ← log_eq, htimes]
  · intro t ht
    rcases List.mem_append.1 ht with hold | hnew
    · exact hgone t hold
    · exact ⟨(k, now), by simp, old_of_dropped (l := l) hnew⟩

theorem Inv.grant (h : Inv k l calls times) (hnow : ∀ c ∈ calls, c.2 ≤ now)
    (hroom : (l.pruned k now).length < l.maxRequests) :
    Inv k (l.setLog k (l.pruned k now ++ [now])) (calls ++ [(k, now)]) (times ++ [now]) := by
  have hprune := h.prune now
  obtain ⟨gone, htimes, hgone⟩ := h.split
  obtain ⟨gone', htimes', hgone'⟩ := hprune.split
  refine ⟨?_, ?_, ⟨gone', ?_, hgone'⟩, ?_⟩
  · rw [List.pairwise_append]
    refine ⟨h.sorted, List.pairwise_singleton _ _, fun t ht u hu => ?_⟩
    obtain ⟨c, hc, rfl⟩ := h.called t ht
    rw [List.mem_singleton.1 hu]
    exact hnow c hc
  · intro t ht
    rcases List.mem_append.1 ht with hold | hnew
    · exact hprune.called t hold
    · exact ⟨(k, now), by simp, List.mem_singleton.1 hnew⟩
  · simp only [RateLimiter.setLog, Function.update_self] at htimes' ⊢
    rw [htimes', List.append_assoc]
  · have hfar : ∀ t ∈ gone, (l.window * 1000000 : ℤ) < |now - t| := fun t ht => not_near (old_later (hgone t ht) hnow)
    exact allowRequest_limited (l := l) h.limited htimes hfar hroom

theorem step_inv (h : Inv k l calls times) {j : Key} (hnow : ∀ c ∈ calls, c.2 ≤ now) {log : List (Out Key)}
    (htimes : times = grants k log) :
    Inv k (step l (j, now)).1 (calls ++ [(j, now)]) (grants k (log ++ [(step l (j, now)).2])) := by
  rcases eq_or_ne j k with rfl | hne
  · rcases allowRequest_cases l j now with ⟨hroom, hallow⟩ | ⟨-, hallow⟩
    · have hlog : grants j (log ++ [(step l (j, now)).2]) = times ++ [now] := by simp [grants, step, hallow, htimes]
      rw [hlog, step, hallow]
      exact h.grant hnow hroom
    · have hlog : grants j (log ++ [(step l (j, now)).2]) = times := by simp [grants, step, hallow, htimes]
      rw [hlog, step, hallow]
      exact h.prune now
  · have hlog : grants k (log ++ [(step l (j, now)).2]) = times := by simp [grants, step, hne, htimes]
    have hother : (step l (j, now)).1.logs k = l.logs k ∧ (step l (j, now)).1.window = l.window ∧
        (step l (j, now)).1.maxRequests = l.maxRequests := by
      rcases allowRequest_cases l j now with ⟨-, hallow⟩ | ⟨-, hallow⟩ <;>
        simp [step, hallow, RateLimiter.setLog, hne.symm]
    have hlater := h.later (j, now)
    rw [hlog]
    refine ⟨h.sorted, hlater.called, ?_, ?_⟩
    · rw [hother.1, hother.2.1]
      exact hlater.split
    · rw [hother.2.1, hother.2.2]
      exact h.limited

omit [DecidableEq Key] in
theorem make_inv (k : Key) (maxReq windowMs : ℕ) : Inv k (.make maxReq windowMs) [] [] where
  sorted := List.Pairwise.nil
  called := by simp
  split := ⟨[], rfl, by simp⟩
  limited := limited_nil _ _

theorem step_parameters (l : RateLimiter Key) (call : Key × ℤ) :
    (step l call).1.maxRequests = l.maxRequests ∧ (step l call).1.window = l.window := by
  rcases allowRequest_cases l call.1 call.2 with ⟨-, hallow⟩ | ⟨-, hallow⟩ <;> simp [step, hallow, RateLimiter.setLog]

theorem run_parameters (maxReq windowMs : ℕ) (calls : List (Key × ℤ)) :
    (run maxReq windowMs calls).1.maxRequests = maxReq ∧ (run maxReq windowMs calls).1.window = windowMs := by
  refine Machine.runTotal_inv (P := fun (l : RateLimiter Key) _ _ => l.maxRequests = maxReq ∧ l.window = windowMs) ?_
    ⟨rfl, rfl⟩ calls
  intro l _ _ call h
  obtain ⟨hmax, hwindow⟩ := step_parameters l call
  exact ⟨hmax.trans h.1, hwindow.trans h.2⟩

theorem run_inv (maxReq windowMs : ℕ) (calls : List (Key × ℤ)) (hclock : (calls.map Prod.snd).Pairwise (· ≤ ·)) (k : Key) :
    Inv k (run maxReq windowMs calls).1 calls (grants k (run maxReq windowMs calls).2) := by
  refine Machine.runTotal_inv
    (P := fun l calls log => (calls.map Prod.snd).Pairwise (· ≤ ·) → Inv k l calls (grants k log)) ?_
    (fun _ => make_inv k maxReq windowMs) calls hclock
  intro l calls log ⟨j, now⟩ h hclock
  rw [List.map_append, List.pairwise_append] at hclock
  refine step_inv (h hclock.1) (fun c hc => ?_) rfl
  exact hclock.2.2 c.2 (List.mem_map_of_mem hc) now (by simp)

/-! ## Other keys -/

theorem step_own (k : Key) (call : Key × ℤ) (l l' : RateLimiter Key) (hown : decide (call.1 = k) = true)
    (h : l.maxRequests = l'.maxRequests ∧ l.window = l'.window ∧ l.logs k = l'.logs k) :
    ((step l call).1.maxRequests = (step l' call).1.maxRequests ∧ (step l call).1.window = (step l' call).1.window ∧
      (step l call).1.logs k = (step l' call).1.logs k) ∧ (step l call).2 = (step l' call).2 := by
  obtain rfl : call.1 = k := of_decide_eq_true hown
  obtain ⟨hmax, hwindow, hlogs⟩ := h
  have hpruned : l.pruned call.1 call.2 = l'.pruned call.1 call.2 := by
    rw [RateLimiter.pruned, RateLimiter.pruned, hlogs, hwindow]
  rcases allowRequest_cases l call.1 call.2 with ⟨hroom, hallow⟩ | ⟨hfull, hallow⟩
  · rw [hpruned, hmax] at hroom
    have hallow' : l'.allowRequest call.1 call.2 = (l'.setLog call.1 (l'.pruned call.1 call.2 ++ [call.2]), true) :=
      if_pos hroom
    simp [step, hallow, hallow', RateLimiter.setLog, hmax, hwindow, hpruned]
  · rw [hpruned, hmax] at hfull
    have hallow' : l'.allowRequest call.1 call.2 = (l'.setLog call.1 (l'.pruned call.1 call.2), false) := if_neg hfull
    simp [step, hallow, hallow', RateLimiter.setLog, hmax, hwindow, hpruned]

theorem step_other (k : Key) (call : Key × ℤ) (l l' : RateLimiter Key) (hother : decide (call.1 = k) = false)
    (h : l.maxRequests = l'.maxRequests ∧ l.window = l'.window ∧ l.logs k = l'.logs k) :
    ((step l call).1.maxRequests = l'.maxRequests ∧ (step l call).1.window = l'.window ∧
      (step l call).1.logs k = l'.logs k) ∧ decide ((step l call).2.key = k) = false := by
  have hne : k ≠ call.1 := fun heq => of_decide_eq_false hother heq.symm
  rcases allowRequest_cases l call.1 call.2 with ⟨-, hallow⟩ | ⟨-, hallow⟩ <;>
    simp [step, hallow, RateLimiter.setLog, hne, hne.symm, h]

/-- **The limiter and the whole history.** After every list of calls with non-decreasing clock readings, for every key: a
call at a time that is not before them is granted exactly if fewer than `maxReq` of all the grants so far are at most
`windowMs` whole milliseconds old; every interval of at most `windowMs` milliseconds has at most `maxReq` grants; the
answers are those of any other run with the same calls for this key. -/
theorem granted_iff_window (maxReq windowMs : ℕ) (calls : List (Key × ℤ))
    (hclock : (calls.map Prod.snd).Pairwise (· ≤ ·)) (k : Key) :
    (∀ now, (∀ c ∈ calls, c.2 ≤ now) →
      (((run maxReq windowMs calls).1.allowRequest k now).2 = true ↔
        (grants k (run maxReq windowMs calls).2).countP (fun t => (now - t) / 1000000 ≤ windowMs) < maxReq)) ∧
      (∀ a b : ℤ, b - a ≤ windowMs * 1000000 →
        (grants k (run maxReq windowMs calls).2).countP (fun t => a ≤ t ∧ t ≤ b) ≤ maxReq) ∧
      ∀ calls' : List (Key × ℤ), calls.filter (fun c => c.1 = k) = calls'.filter (fun c => c.1 = k) →
        answers k (run maxReq windowMs calls).2 = answers k (run maxReq windowMs calls').2 := by
  have h := run_inv maxReq windowMs calls hclock k
  obtain ⟨hmax, hwindow⟩ := run_parameters maxReq windowMs calls
  refine ⟨?_, ?_, ?_⟩
  · intro now hnow
    rw [allowRequest_granted, h.length_pruned hnow, hmax, hwindow]
  · have hlimited := h.limited
    rwa [hmax, hwindow] at hlimited
  · intro calls' hsame
    have hfilter : ∀ calls : List (Key × ℤ), answers k (run maxReq windowMs calls).2 =
        answers k (run maxReq windowMs (calls.filter fun c => c.1 = k)).2 :=
      Machine.runTotal_filter
        (R := fun l l' => l.maxRequests = l'.maxRequests ∧ l.window = l'.window ∧ l.logs k = l'.logs k)
        (step_own k) (step_other k) ⟨rfl, rfl, rfl⟩
    rw [hfilter calls, hsame, ← hfilter calls']

/-- two calls in one millisecond, and one that is exactly a window later -/
def burst : List (ℕ × ℤ) := [(0, 0), (0, 999999), (1, 999999), (0, 10999999)]

theorem granted_iff_window_burst :
    (answers 0 (run 1 10 burst).2).map Out.granted = [true, false, false] ∧
      ((run 1 10 burst).1.allowRequest 0 11000000).2 = true :=
  ⟨by decide, ((granted_iff_window 1 10 burst (by decide) 0).1 11000000 (by decide)).2 (by decide)⟩

end InterviewPrep.RateLimit
