/-
# When to retry, and after how long

`src/middleware/retry.rs`: `BudgetState`, `PolicyKind`, `exponential_delay` and
`retry_after_delay`.

The three branches of `RetryService::call` look at a response in three ways, the
whole of it with its body read to the end, its status and headers, or its status
only, and each comes to a verdict: to return the response, or to send the request
again after a delay.  `verdict` takes that part out of the branches; the branches themselves
are in `Noxy.Retry.Service`, which also shows that what follows a verdict is the same three
times.  `verdict_spec` says what the verdicts have in common: the response they would return
is the one they were given, read or not, and none asks for a retry at the last attempt.

Durations are in nanoseconds.  The ratio of a budget is a rational number, and the
share of retries is compared with it exactly.
-/

import Mathlib.Algebra.Order.Ring.Rat
import Noxy.Http.Text
import Noxy.Retry.Capture

namespace Noxy
namespace Retry

open Http

/-- `BudgetState`. -/
structure BudgetState where
  ratio : ℚ
  minRetries : ℕ
  window : ℕ
  requests : ℕ
  retries : ℕ
  windowStart : ℤ

/-- Two reads of the clock: the one a window's age is taken with, and the start of a
new window. -/
structure Reads where
  now : ℤ
  restart : ℤ

namespace BudgetState

/-- `maybe_reset_window`. -/
def maybeResetWindow (b : BudgetState) (reads : Reads) : BudgetState :=
  if b.window ≤ (reads.now - b.windowStart).toNat then
    { b with requests := 0, retries := 0, windowStart := reads.restart }
  else b

/-- `record_request`. -/
def recordRequest (b : BudgetState) (reads : Reads) : BudgetState :=
  let b := b.maybeResetWindow reads
  { b with requests := b.requests + 1 }

/-- `allows_retry`. -/
def allowsRetry (b : BudgetState) (reads : Reads) : Bool × BudgetState :=
  let b := b.maybeResetWindow reads
  if b.retries < b.minRetries then (true, b)
  else
    let total := b.requests + b.retries
    if total = 0 then (true, b)
    else (decide ((b.retries : ℚ) / total < b.ratio), b)

/-- `record_retry`. -/
def recordRetry (b : BudgetState) : BudgetState := { b with retries := b.retries + 1 }

/-- What `call` does with the budget before a retry, under one lock. -/
def permit (b : BudgetState) (reads : Reads) : Bool × BudgetState :=
  match b.allowsRetry reads with
  | (true, b) => (true, b.recordRetry)
  | (false, b) => (false, b)

end BudgetState

/-- `http::response::Parts`. -/
structure Parts where
  status : ℕ
  headers : HeaderMap

/-- `Response<Bytes>`. -/
structure Buffered where
  status : ℕ
  headers : HeaderMap
  bytes : List UInt8

/-- `PolicyKind`. -/
inductive PolicyKind where
  | headers (f : Parts → ℕ → Option ℕ)
  | body (f : Buffered → ℕ → Option ℕ)

/-- The policy reads the bodies of responses. -/
def readsBody : Option PolicyKind → Prop
  | some (.body _) => True
  | _ => False

/-- `Duration::MAX`. -/
def maxDuration : ℕ := 2 ^ 64 * 10 ^ 9 - 1

/-- `max_delay` in `exponential_delay`.  `1 << attempt` is a shift of
`u32`, in a build without overflow checks. -/
def maxDelay (base maxBackoff attempt : ℕ) : ℕ :=
  min (min (base * 2 ^ (attempt % 32)) maxDuration) maxBackoff

/-- The upper end of the range of `rand::random_range` in `exponential_delay`: `as_nanos()`
cast to `u64`. -/
def jitterEnd (base maxBackoff attempt : ℕ) : ℕ := maxDelay base maxBackoff attempt % 2 ^ 64

/-- `exponential_delay`, with the choice of `rand`. -/
def exponentialDelay (base maxBackoff attempt : ℕ) (jitter : (upper : ℕ) → Fin (upper + 1)) : ℕ :=
  jitter (jitterEnd base maxBackoff attempt)

/-- `retry_after_delay`. -/
def retryAfterDelay (H : HttpCrate) (headers : HeaderMap) : Option ℕ :=
  (((HeaderMap.get headers "retry-after").bind H.toStr).bind fun value =>
    (parseUnsigned 64 value).toOption).map (· * 10 ^ 9)

/-- What a branch of `call` makes of a response. -/
inductive Verdict where
  | accept (resp : Response)
  | retry (resp : Response) (delay : ℕ)

/-- The response to return unless the request is sent again. -/
def Verdict.resp : Verdict → Response
  | .accept resp => resp
  | .retry resp _ => resp

/-- The verdict is to send the request again. -/
def Verdict.isRetry : Verdict → Bool
  | .accept _ => false
  | .retry _ _ => true

/-- `RetryService`, its inner service and its budget apart. -/
structure RetryService where
  statuses : List ℕ
  maxRetries : ℕ
  backoff : ℕ
  maxBackoff : ℕ
  policy : Option PolicyKind
  maxReplayBodyBytes : ℕ
  retryMethods : Option (List String)

namespace RetryService

/-- What each kind of policy makes of a response. -/
def verdict (svc : RetryService) (H : HttpCrate) (maxRetries attempt : ℕ)
    (jitter : (upper : ℕ) → Fin (upper + 1)) (resp : Response) : Except String Verdict :=
  match svc.policy with
  | some (.body f) =>
      match resp.body.collect with
      | .error e => .error e
      | .ok bytes =>
          let buffered : Response := ⟨resp.status, resp.headers, fullBody bytes⟩
          match f ⟨resp.status, resp.headers, bytes⟩ attempt with
          | some delay =>
              if attempt < maxRetries then .ok (.retry buffered delay) else .ok (.accept buffered)
          | none => .ok (.accept buffered)
  | some (.headers f) =>
      match f ⟨resp.status, resp.headers⟩ attempt with
      | some delay => if attempt < maxRetries then .ok (.retry resp delay) else .ok (.accept resp)
      | none => .ok (.accept resp)
  | none =>
      if attempt = maxRetries ∨ resp.status ∉ svc.statuses then .ok (.accept resp)
      else
        .ok (.retry resp ((retryAfterDelay H resp.headers).getD
          (exponentialDelay svc.backoff svc.maxBackoff attempt jitter)))

/-- A response as the service returns it: as it came, or read to its end. -/
def Returned (svc : RetryService) (resp r : Response) : Prop :=
  r.status = resp.status ∧ r.headers = resp.headers ∧
    (readsBody svc.policy → ∃ bytes, resp.body.collect = .ok bytes ∧ r.body = fullBody bytes) ∧
    (¬ readsBody svc.policy → r.body = resp.body)

section Verdict

variable {svc : RetryService} {H : HttpCrate} {maxRetries attempt : ℕ}
  {jitter : (upper : ℕ) → Fin (upper + 1)} {resp : Response}

theorem returned_self (h : ¬ readsBody svc.policy) : svc.Returned resp resp :=
  ⟨rfl, rfl, fun hreads => absurd hreads h, fun _ => rfl⟩

theorem returned_read (h : readsBody svc.policy) {bytes : List UInt8}
    (hcollect : resp.body.collect = .ok bytes) :
    svc.Returned resp ⟨resp.status, resp.headers, fullBody bytes⟩ :=
  ⟨rfl, rfl, fun _ => ⟨bytes, hcollect, rfl⟩, fun hn => absurd h hn⟩

/-- **What the branches have in common.**  Each returns the response it was given, and
none asks for a retry at the last attempt. -/
theorem verdict_spec {v : Verdict} (hle : attempt ≤ maxRetries)
    (h : svc.verdict H maxRetries attempt jitter resp = .ok v) :
    svc.Returned resp v.resp ∧ (v.isRetry = true → attempt < maxRetries) := by
  unfold verdict at h
  split at h
  · rename_i f hpolicy
    have hreads : readsBody svc.policy := by rw [hpolicy]; trivial
    split at h
    · cases h
    · rename_i bytes hcollect
      split at h
      · split at h
        · cases h
          exact ⟨returned_read hreads hcollect, fun _ => by assumption⟩
        · cases h
          exact ⟨returned_read hreads hcollect, Bool.noConfusion⟩
      · cases h
        exact ⟨returned_read hreads hcollect, Bool.noConfusion⟩
  · rename_i f hpolicy
    have hstreams : ¬ readsBody svc.policy := by rw [hpolicy]; exact id
    split at h
    · split at h
      · cases h
        exact ⟨returned_self hstreams, fun _ => by assumption⟩
      · cases h
        exact ⟨returned_self hstreams, Bool.noConfusion⟩
    · cases h
      exact ⟨returned_self hstreams, Bool.noConfusion⟩
  · rename_i hpolicy
    have hstreams : ¬ readsBody svc.policy := by rw [hpolicy]; exact id
    split at h
    · cases h
      exact ⟨returned_self hstreams, Bool.noConfusion⟩
    · rename_i hneither
      cases h
      have hne : attempt ≠ maxRetries := fun h => hneither (.inl h)
      exact ⟨returned_self hstreams, fun _ => by omega⟩

end Verdict

end RetryService

end Retry
end Noxy
