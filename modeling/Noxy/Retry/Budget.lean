/-
# The retry budget

`src/middleware/retry.rs`: `BudgetState`, as the requests of all connections use it.
Each of them locks it once to count itself, and once more before it is sent again, to ask
for the retry and to count it.  The counters start over when a lock finds that their
window has passed, whichever request has the lock, and so also between two locks of one
request.

`Shared` is the budget with the requests that are under way, and a run is a sequence of
locks by any of them, in any order (`Event`).  `call_locks` says that this is what
`RetryService::call` does to the budget.  `locks` records what the code does not: which
locks found the window over, and which permitted a retry.  `retries_within_budget` is the
bound that holds in every state of every run, and that the counter is the number of
retries permitted since the window began.
-/

import Noxy.Lib.Run
import Noxy.Retry.Service
import Mathlib.Algebra.Order.Field.Rat
import Mathlib.Tactic.Linarith

namespace Noxy
namespace Retry

open Http Lib

namespace BudgetState

/-- `BudgetState::new` at the instant `now`. -/
def new (ratio : ℚ) (minRetries window : ℕ) (now : ℤ) : BudgetState :=
  ⟨ratio, minRetries, window, 0, 0, now⟩

/-- The window has passed. -/
def isOver (b : BudgetState) (reads : Reads) : Bool :=
  decide (b.window ≤ (reads.now - b.windowStart).toNat)

/-- **The bound on the retries of a window.**  They are within the floor, or those before
the last one are within the ratio of everything that was sent before it. -/
def Within (b : BudgetState) : Prop :=
  b.retries ≤ b.minRetries ∨ (b.retries : ℚ) - 1 ≤ b.ratio * (b.requests + b.retries - 1)

variable {b : BudgetState} {reads : Reads}

theorem maybeResetWindow_of_over (h : b.isOver reads = true) :
    b.maybeResetWindow reads =
      { b with requests := 0, retries := 0, windowStart := reads.restart } := by
  rw [maybeResetWindow, if_pos (of_decide_eq_true h)]

theorem maybeResetWindow_of_not_over (h : b.isOver reads = false) :
    b.maybeResetWindow reads = b := by
  rw [maybeResetWindow, if_neg (of_decide_eq_false h)]

@[simp] theorem maybeResetWindow_ratio (b : BudgetState) (reads : Reads) :
    (b.maybeResetWindow reads).ratio = b.ratio := by
  unfold maybeResetWindow
  split <;> rfl

@[simp] theorem maybeResetWindow_minRetries (b : BudgetState) (reads : Reads) :
    (b.maybeResetWindow reads).minRetries = b.minRetries := by
  unfold maybeResetWindow
  split <;> rfl

theorem maybeResetWindow_retries :
    (b.maybeResetWindow reads).retries = if b.isOver reads then 0 else b.retries := by
  cases h : b.isOver reads with
  | true => rw [maybeResetWindow_of_over h, if_pos rfl]
  | false => rw [maybeResetWindow_of_not_over h, if_neg Bool.false_ne_true]

theorem Within.maybeResetWindow (h : b.Within) (reads : Reads) :
    (b.maybeResetWindow reads).Within := by
  cases hover : b.isOver reads with
  | true =>
      rw [maybeResetWindow_of_over hover]
      exact Or.inl (Nat.zero_le _)
  | false =>
      rw [maybeResetWindow_of_not_over hover]
      exact h

/-- Another request leaves more room. -/
theorem Within.recordRequest (h : b.Within) (hratio : 0 ≤ b.ratio) :
    (b.recordRequest reads).Within := by
  rcases h.maybeResetWindow reads with hfloor | hshare
  · exact Or.inl hfloor
  · right
    rw [maybeResetWindow_ratio] at hshare
    change ((b.maybeResetWindow reads).retries : ℚ) - 1 ≤ (b.maybeResetWindow reads).ratio *
      (((b.maybeResetWindow reads).requests + 1 : ℕ) + (b.maybeResetWindow reads).retries - 1)
    rw [maybeResetWindow_ratio]
    push_cast
    linarith

/-- **What `call` asks of the budget before a retry.**  It is permitted below the floor,
when nothing was sent in the window, and when the share of retries is below the ratio. -/
theorem permit_cases (b : BudgetState) (reads : Reads) :
    b.permit reads = (false, b.maybeResetWindow reads) ∨
      b.permit reads = (true, (b.maybeResetWindow reads).recordRetry) ∧
        ((b.maybeResetWindow reads).retries < b.minRetries ∨
          (b.maybeResetWindow reads).requests + (b.maybeResetWindow reads).retries = 0 ∨
          ((b.maybeResetWindow reads).retries : ℚ) < b.ratio *
            ((b.maybeResetWindow reads).requests + (b.maybeResetWindow reads).retries)) := by
  have hmin := maybeResetWindow_minRetries b reads
  have hratio := maybeResetWindow_ratio b reads
  unfold permit allowsRetry
  generalize b.maybeResetWindow reads = w at hmin hratio ⊢
  dsimp only
  by_cases hfloor : w.retries < w.minRetries
  · simp only [if_pos hfloor]
    exact Or.inr ⟨trivial, Or.inl (hmin ▸ hfloor)⟩
  · simp only [if_neg hfloor]
    by_cases hzero : w.requests + w.retries = 0
    · simp only [if_pos hzero]
      exact Or.inr ⟨trivial, Or.inr (Or.inl hzero)⟩
    · simp only [if_neg hzero]
      have hpos : (0 : ℚ) < (w.requests + w.retries : ℕ) := by
        exact_mod_cast Nat.pos_of_ne_zero hzero
      by_cases hshare : (w.retries : ℚ) / (w.requests + w.retries : ℕ) < w.ratio
      · simp only [decide_eq_true hshare]
        refine Or.inr ⟨trivial, Or.inr (Or.inr ?_)⟩
        rw [div_lt_iff₀ hpos, hratio] at hshare
        exact_mod_cast hshare
      · simp only [decide_eq_false hshare]
        exact Or.inl trivial

theorem Within.permit (h : b.Within) (reads : Reads) : (b.permit reads).2.Within := by
  rcases permit_cases b reads with hrefused | ⟨hpermitted, hcases⟩
  · rw [hrefused]
    exact h.maybeResetWindow reads
  · rw [hpermitted]
    have hmin := maybeResetWindow_minRetries b reads
    have hratio := maybeResetWindow_ratio b reads
    generalize b.maybeResetWindow reads = w at hcases hmin hratio
    rcases hcases with hfloor | hzero | hshare
    · left
      change w.retries + 1 ≤ w.minRetries
      omega
    · right
      obtain ⟨hrequests, hretries⟩ : w.requests = 0 ∧ w.retries = 0 := by omega
      simp [recordRetry, hrequests, hretries]
    · right
      change ((w.retries + 1 : ℕ) : ℚ) - 1 ≤ w.ratio * (w.requests + (w.retries + 1 : ℕ) - 1)
      rw [hratio]
      push_cast
      linarith

end BudgetState

/-! ### One call and the budget -/

/-- A lock on the budget: for the request, or for a retry. -/
inductive Lock where
  | request (reads : Reads)
  | retry (reads : Reads)

/-- What a lock does to the budget. -/
def BudgetState.lock (b : BudgetState) : Lock → BudgetState
  | .request reads => b.recordRequest reads
  | .retry reads => (b.permit reads).2

/-- The budget can come from another by locks. -/
def ByLocks (b b' : BudgetState) : Prop := ∃ locks, b' = run BudgetState.lock b locks

theorem ByLocks.refl (b : BudgetState) : ByLocks b b := ⟨[], rfl⟩

theorem ByLocks.then {b b' : BudgetState} (h : ByLocks b b') (l : Lock) :
    ByLocks b (b'.lock l) := by
  obtain ⟨locks, rfl⟩ := h
  exact ⟨locks ++ [l], (run_concat BudgetState.lock b locks l).symm⟩

theorem ByLocks.trans {b b' b'' : BudgetState} (h : ByLocks b b') (h' : ByLocks b' b'') :
    ByLocks b b'' := by
  obtain ⟨locks, rfl⟩ := h
  obtain ⟨locks', rfl⟩ := h'
  exact ⟨locks ++ locks', (run_append BudgetState.lock b locks locks').symm⟩

section Call

variable {H : HttpCrate} (svc : RetryService) {around : Surroundings H} (req : Request H)

theorem turn_locks (hothers : ∀ n b, ByLocks b (around.others n b)) (attempt : ℕ)
    (replay : Option (List UInt8)) (b : BudgetState) :
    match svc.turn around req attempt replay (some b) with
    | .notReady _ => True
    | .stop budget _ => ∃ b', budget = some b' ∧ ByLocks b b'
    | .again _ _ budget => ∃ b', budget = some b' ∧ ByLocks b b' := by
  have hkept : ∃ b', some b = some b' ∧ ByLocks b b' := ⟨b, rfl, ByLocks.refl b⟩
  have hpermit : ∃ b', (RetryService.permit around (attempt + 1) (some b)).2 = some b' ∧
      ByLocks b b' :=
    ⟨_, rfl, (hothers (attempt + 1) b).then (.retry (around.reads (attempt + 1)))⟩
  rw [RetryService.turn_eq_follow]
  cases around.reply attempt (RetryService.request req attempt replay) with
  | notReady e => trivial
  | failed e => exact hkept
  | response resp =>
      unfold RetryService.follow
      dsimp only
      cases svc.verdict H (svc.effectiveRetries req) attempt (around.jitter attempt) resp with
      | error e => exact hkept
      | ok v =>
          cases v with
          | accept resp => exact hkept
          | retry resp delay =>
              dsimp only
              cases replay.orElse fun _ =>
                  (svc.captureAfter req (around.polls attempt)).snapshot with
              | none => exact hkept
              | some bytes =>
                  dsimp only
                  rcases hp : RetryService.permit around (attempt + 1) (some b) with ⟨_ | _, budget⟩
                  · rw [hp] at hpermit
                    exact hpermit
                  · rw [hp] at hpermit
                    exact hpermit

theorem attempts_locks (hothers : ∀ n b, ByLocks b (around.others n b)) (n : ℕ) :
    ∀ (attempt : ℕ) (replay : Option (List UInt8)) (b : BudgetState),
      ∃ b', (svc.attempts around req n attempt replay (some b)).budget = some b' ∧
        ByLocks b b' := by
  induction n with
  | zero => exact fun _ _ b => ⟨b, rfl, ByLocks.refl b⟩
  | succ n ih =>
      intro attempt replay b
      have hturn := turn_locks svc req hothers attempt replay b
      rw [RetryService.attempts]
      cases ht : svc.turn around req attempt replay (some b) with
      | notReady e => exact ⟨b, rfl, ByLocks.refl b⟩
      | stop budget outcome =>
          rw [ht] at hturn
          exact hturn
      | again bytes delay budget =>
          rw [ht] at hturn
          obtain ⟨b₁, rfl, h₁⟩ := hturn
          obtain ⟨b₂, h₂, h₁₂⟩ := ih (attempt + 1) (some bytes) b₁
          exact ⟨b₂, h₂, h₁.trans h₁₂⟩

/-- **A call does nothing to the budget but lock it**, as long as the others do not. -/
theorem call_locks (hothers : ∀ n b, ByLocks b (around.others n b)) (b : BudgetState) :
    ∃ b', (svc.call around req (some b)).budget = some b' ∧ ByLocks b b' := by
  obtain ⟨b', hbudget, hlocks⟩ := attempts_locks svc req hothers
    (svc.effectiveRetries req + 1) 0
    (if RetryService.bodyKnownEmpty req then some [] else none)
    ((around.others 0 b).recordRequest (around.reads 0))
  exact ⟨b', hbudget, ((hothers 0 b).then (.request (around.reads 0))).trans hlocks⟩

end Call

/-! ### All requests and the budget -/

/-- What a lock found and decided. -/
structure Taken where
  expired : Bool
  permitted : Bool
  deriving DecidableEq, Repr

/-- The budget, for each request that is under way the retries it has left, and the locks
so far. -/
structure Shared where
  budget : BudgetState
  underWay : List ℕ
  locks : List Taken

/-- What happens to a request.  One that is under way is named by its position. -/
inductive Event where
  /-- It arrives, with the retries that its method is allowed, and is counted. -/
  | start (retries : ℕ) (reads : Reads)
  /-- Its response calls for a retry, and it asks the budget. -/
  | again (i : ℕ) (reads : Reads)
  /-- It ends otherwise. -/
  | finish (i : ℕ)

namespace Shared

/-- No request yet. -/
def start (ratio : ℚ) (minRetries window : ℕ) (now : ℤ) : Shared :=
  ⟨BudgetState.new ratio minRetries window now, [], []⟩

/-- The state after an event. -/
def step (s : Shared) : Event → Shared
  | .start retries reads =>
      { budget := s.budget.recordRequest reads
        underWay := s.underWay ++ [retries]
        locks := s.locks ++ [⟨s.budget.isOver reads, false⟩] }
  | .again i reads =>
      match s.underWay[i]? with
      | some (left + 1) =>
          match s.budget.permit reads with
          | (true, budget) =>
              { budget := budget
                underWay := s.underWay.set i left
                locks := s.locks ++ [⟨s.budget.isOver reads, true⟩] }
          | (false, budget) =>
              { budget := budget
                underWay := s.underWay.eraseIdx i
                locks := s.locks ++ [⟨s.budget.isOver reads, false⟩] }
      | _ => s
  | .finish i => { s with underWay := s.underWay.eraseIdx i }

end Shared

/-- The locks since the window began: those from the last one that found it over. -/
def currentWindow (locks : List Taken) : List Taken :=
  locks.foldl (fun window l => if l.expired then [l] else window ++ [l]) []

/-- The retries that were permitted since the window began. -/
def permittedInWindow (locks : List Taken) : ℕ := (currentWindow locks).countP Taken.permitted

theorem permittedInWindow_concat (locks : List Taken) (l : Taken) :
    permittedInWindow (locks ++ [l]) =
      (if l.expired then 0 else permittedInWindow locks) + if l.permitted then 1 else 0 := by
  unfold permittedInWindow currentWindow
  rw [List.foldl_append, List.foldl_cons, List.foldl_nil]
  cases l.expired with
  | true => simp [List.countP_cons]
  | false => simp [List.countP_append, List.countP_cons]

/-- What every event keeps. -/
structure Sound (ratio : ℚ) (minRetries : ℕ) (s : Shared) : Prop where
  ratio_eq : s.budget.ratio = ratio
  minRetries_eq : s.budget.minRetries = minRetries
  within : s.budget.Within
  permitted : permittedInWindow s.locks = s.budget.retries

/-- **Every event keeps the bound and the count.** -/
theorem sound_step {ratio : ℚ} {minRetries : ℕ} (hratio : 0 ≤ ratio) {s : Shared}
    (h : Sound ratio minRetries s) (e : Event) : Sound ratio minRetries (s.step e) := by
  cases e with
  | start retries reads =>
      refine ⟨?_, ?_, h.within.recordRequest (h.ratio_eq ▸ hratio), ?_⟩
      · exact (s.budget.maybeResetWindow_ratio reads).trans h.ratio_eq
      · exact (s.budget.maybeResetWindow_minRetries reads).trans h.minRetries_eq
      · change permittedInWindow (s.locks ++ [_]) = (s.budget.maybeResetWindow reads).retries
        rw [permittedInWindow_concat, BudgetState.maybeResetWindow_retries, h.permitted]
        rfl
  | again i reads =>
      have hwithin := h.within.permit reads
      have hr := (s.budget.maybeResetWindow_ratio reads).trans h.ratio_eq
      have hm := (s.budget.maybeResetWindow_minRetries reads).trans h.minRetries_eq
      simp only [Shared.step]
      split
      · rcases BudgetState.permit_cases s.budget reads with hrefused | ⟨hpermitted, _⟩
        · rw [hrefused] at hwithin ⊢
          refine ⟨hr, hm, hwithin, ?_⟩
          change permittedInWindow (s.locks ++ [_]) = (s.budget.maybeResetWindow reads).retries
          rw [permittedInWindow_concat, BudgetState.maybeResetWindow_retries, h.permitted]
          rfl
        · rw [hpermitted] at hwithin ⊢
          refine ⟨hr, hm, hwithin, ?_⟩
          change permittedInWindow (s.locks ++ [_]) = (s.budget.maybeResetWindow reads).retries + 1
          rw [permittedInWindow_concat, BudgetState.maybeResetWindow_retries, h.permitted]
          rfl
      · exact h
  | finish i => exact ⟨h.ratio_eq, h.minRetries_eq, h.within, h.permitted⟩

/-- **The retry budget holds.**  In every state of every run, the retries of the window are
within the floor, or those before the last one are within the ratio of everything sent
before it; and the counter is the number of retries permitted since the window began. -/
theorem retries_within_budget {ratio : ℚ} (hratio : 0 ≤ ratio) (minRetries window : ℕ) (now : ℤ)
    (events : List Event) :
    Always Shared.step
      (fun s =>
        (s.budget.retries ≤ minRetries ∨
          (s.budget.retries : ℚ) - 1 ≤ ratio * (s.budget.requests + s.budget.retries - 1)) ∧
        permittedInWindow s.locks = s.budget.retries)
      (Shared.start ratio minRetries window now) events := by
  have hstart : Sound ratio minRetries (Shared.start ratio minRetries window now) :=
    ⟨rfl, rfl, Or.inl (Nat.zero_le _), rfl⟩
  have hsound : Always Shared.step (Sound ratio minRetries)
      (Shared.start ratio minRetries window now) events :=
    always_of_kept (J := Sound ratio minRetries) (fun s e h => sound_step hratio h e) hstart events
  refine hsound.mono fun s h => ?_
  have hwithin := h.within
  rw [BudgetState.Within, h.ratio_eq, h.minRetries_eq] at hwithin
  exact ⟨hwithin, h.permitted⟩

/-- A budget of a tenth with a floor of one, in which two requests ask for a retry: the
first gets it, the second does not. -/
theorem retries_within_budget_tenth :
    let reads : Reads := ⟨0, 0⟩
    let events : List Event := [.start 3 reads, .start 3 reads, .again 0 reads, .again 1 reads]
    let s := run Shared.step (Shared.start (1 / 10) 1 10 0) events
    (s.budget.retries ≤ 1 ∨
        (s.budget.retries : ℚ) - 1 ≤ 1 / 10 * (s.budget.requests + s.budget.retries - 1)) ∧
      permittedInWindow s.locks = s.budget.retries := by
  intro reads events
  exact retries_within_budget (by norm_num) 1 10 0 events events [] (List.append_nil _).symm

end Retry
end Noxy
