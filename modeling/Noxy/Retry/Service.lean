/-
# The retry service

`src/middleware/retry.rs`: `RetryService::call`.

The loop sends the request, with its body streamed the first time and replayed from
the capture afterwards, until a branch accepts the response, nothing was captured
for a replay, or the budget is used up.  What the inner service answers, how far it
has polled the first body when a decision is taken, and what other requests do to
the shared budget in between are the surroundings of a call (`Surroundings`), and a
call is run to its trace: the requests sent, the delays slept and the outcome
(`Run`).

The loop's body has a branch for each kind of policy, and each of the three is written out to its
end: the test of the attempt, the snapshot of the capture and the lock on the budget.
`turn_eq_follow` says that they are one: a verdict on the response, and the same end after it.

`turn_ok` says what one turn of the loop does: when it stops it returns the response
it got, and to go again it must not be the last and have bytes to replay.
-/

import Noxy.Retry.Policy

namespace Noxy
namespace Retry

open Http

/-- What comes of one attempt at the inner service. -/
inductive Reply where
  | notReady (err : String)
  | failed (err : String)
  | response (resp : Response)

/-- What a call of the service meets: the inner service's replies, the polls it has
made of the first body by the time of each decision, the choices of `rand`, what
other requests do to the budget before it is locked again, and the clock. -/
structure Surroundings (H : HttpCrate) where
  reply : ℕ → Request H → Reply
  polls : ℕ → ℕ
  jitter : ℕ → (upper : ℕ) → Fin (upper + 1)
  others : ℕ → BudgetState → BudgetState
  reads : ℕ → Reads

/-- How a call ends. -/
inductive Outcome where
  | response (resp : Response)
  | error (err : String)
  | unreachable

/-- What a call does: the requests it sends to the inner service, the delays it
sleeps, and what it leaves and returns. -/
structure Run (H : HttpCrate) where
  calls : List (Request H)
  sleeps : List ℕ
  budget : Option BudgetState
  outcome : Outcome

/-- One turn of the loop. -/
inductive Turn where
  | notReady (err : String)
  | stop (budget : Option BudgetState) (outcome : Outcome)
  | again (bytes : List UInt8) (delay : ℕ) (budget : Option BudgetState)

namespace RetryService

variable {H : HttpCrate} (svc : RetryService)

/-- `method_retryable`. -/
def methodRetryable (method : String) : Bool :=
  match svc.retryMethods with
  | none => true
  | some allow => allow.contains method

/-- The retries a request is allowed. -/
def effectiveRetries (req : Request H) : ℕ :=
  if svc.methodRetryable req.method then svc.maxRetries else 0

/-- `body_known_empty`. -/
def bodyKnownEmpty (req : Request H) : Bool := req.body.exact == some 0

/-- The request of an attempt.  The builder starts without extensions. -/
def request (req : Request H) (attempt : ℕ) (replay : Option (List UInt8)) : Request H :=
  { method := req.method
    uri := req.uri
    version := req.version
    headers := req.headers
    upstreamTarget := none
    extensions := []
    body := if attempt = 0 then req.body else fullBody (replay.getD []) }

/-- The capture when a decision is taken, after a number of polls of the first body. -/
def captureAfter (req : Request H) (polls : ℕ) : ReplayCapture :=
  if bodyKnownEmpty req || !svc.methodRetryable req.method then .new svc.maxReplayBodyBytes
  else (RecordingBody.polls polls ⟨req.body, .new svc.maxReplayBodyBytes⟩).capture

/-- The lock on the budget before a retry, if there is a budget. -/
def permit (around : Surroundings H) (lock : ℕ) :
    Option BudgetState → Bool × Option BudgetState
  | none => (true, none)
  | some b =>
      match (around.others lock b).permit (around.reads lock) with
      | (admitted, b) => (admitted, some b)

section Loop

variable (around : Surroundings H) (req : Request H)

/-- The branch of the loop for a policy on the whole response. -/
def bodyBranch (f : Buffered → ℕ → Option ℕ) (attempt : ℕ) (replay : Option (List UInt8))
    (budget : Option BudgetState) (resp : Response) : Turn :=
  match resp.body.collect with
  | .error e => .stop budget (.error e)
  | .ok bytes =>
      let buffered : Response := ⟨resp.status, resp.headers, fullBody bytes⟩
      match f ⟨resp.status, resp.headers, bytes⟩ attempt with
      | none => .stop budget (.response buffered)
      | some delay =>
          if attempt < svc.effectiveRetries req then
            match if replay.isNone then (svc.captureAfter req (around.polls attempt)).snapshot
                else replay with
            | none => .stop budget (.response buffered)
            | some bytes =>
                match budget with
                | none => .again bytes delay none
                | some b =>
                    match (around.others (attempt + 1) b).allowsRetry
                        (around.reads (attempt + 1)) with
                    | (false, b) => .stop (some b) (.response buffered)
                    | (true, b) => .again bytes delay (some b.recordRetry)
          else .stop budget (.response buffered)

/-- The branch of the loop for a policy on the status and the headers. -/
def headersBranch (f : Parts → ℕ → Option ℕ) (attempt : ℕ) (replay : Option (List UInt8))
    (budget : Option BudgetState) (resp : Response) : Turn :=
  match f ⟨resp.status, resp.headers⟩ attempt with
  | none => .stop budget (.response resp)
  | some delay =>
      if attempt < svc.effectiveRetries req then
        match if replay.isNone then (svc.captureAfter req (around.polls attempt)).snapshot
            else replay with
        | none => .stop budget (.response resp)
        | some bytes =>
            match budget with
            | none => .again bytes delay none
            | some b =>
                match (around.others (attempt + 1) b).allowsRetry
                    (around.reads (attempt + 1)) with
                | (false, b) => .stop (some b) (.response resp)
                | (true, b) => .again bytes delay (some b.recordRetry)
      else .stop budget (.response resp)

/-- The branch of the loop for the statuses.  It tests the attempt first, and comes to the delay
last. -/
def statusBranch (attempt : ℕ) (replay : Option (List UInt8)) (budget : Option BudgetState)
    (resp : Response) : Turn :=
  if attempt = svc.effectiveRetries req ∨ resp.status ∉ svc.statuses then
    .stop budget (.response resp)
  else
    match if replay.isNone then (svc.captureAfter req (around.polls attempt)).snapshot
        else replay with
    | none => .stop budget (.response resp)
    | some bytes =>
        let delay := (retryAfterDelay H resp.headers).getD
          (exponentialDelay svc.backoff svc.maxBackoff attempt (around.jitter attempt))
        match budget with
        | none => .again bytes delay none
        | some b =>
            match (around.others (attempt + 1) b).allowsRetry (around.reads (attempt + 1)) with
            | (false, b) => .stop (some b) (.response resp)
            | (true, b) => .again bytes delay (some b.recordRetry)

/-- The body of the loop. -/
def turn (attempt : ℕ) (replay : Option (List UInt8)) (budget : Option BudgetState) : Turn :=
  match around.reply attempt (request req attempt replay) with
  | .notReady e => .notReady e
  | .failed e => .stop budget (.error e)
  | .response resp =>
      match svc.policy with
      | some (.body f) => svc.bodyBranch around req f attempt replay budget resp
      | some (.headers f) => svc.headersBranch around req f attempt replay budget resp
      | none => svc.statusBranch around req attempt replay budget resp

/-- The loop, with a number of turns left. -/
def attempts : ℕ → ℕ → Option (List UInt8) → Option BudgetState → Run H
  | 0, _, _, budget => ⟨[], [], budget, .unreachable⟩
  | n + 1, attempt, replay, budget =>
      match svc.turn around req attempt replay budget with
      | .notReady e => ⟨[], [], budget, .error e⟩
      | .stop budget outcome => ⟨[request req attempt replay], [], budget, outcome⟩
      | .again bytes delay budget =>
          let rest := attempts n (attempt + 1) (some bytes) budget
          { rest with
            calls := request req attempt replay :: rest.calls
            sleeps := delay :: rest.sleeps }

/-- `RetryService::call`. -/
def call (budget : Option BudgetState) : Run H :=
  svc.attempts around req (svc.effectiveRetries req + 1) 0
    (if bodyKnownEmpty req then some [] else none)
    (budget.map fun b => (around.others 0 b).recordRequest (around.reads 0))

/-! ### What the branches have in common -/

/-- What follows a verdict: what to replay, then the budget. -/
def follow (attempt : ℕ) (replay : Option (List UInt8)) (budget : Option BudgetState) :
    Except String Verdict → Turn
  | .error e => .stop budget (.error e)
  | .ok (.accept resp) => .stop budget (.response resp)
  | .ok (.retry resp delay) =>
      match replay.orElse fun _ => (svc.captureAfter req (around.polls attempt)).snapshot with
      | none => .stop budget (.response resp)
      | some bytes =>
          match permit around (attempt + 1) budget with
          | (false, budget) => .stop budget (.response resp)
          | (true, budget) => .again bytes delay budget

section Branches

variable {attempt : ℕ} {replay : Option (List UInt8)} {budget : Option BudgetState}

/-- The end of each branch, for the response it would return. -/
theorem follow_retry (resp : Response) (delay : ℕ) :
    svc.follow around req attempt replay budget (.ok (.retry resp delay)) =
      match if replay.isNone then (svc.captureAfter req (around.polls attempt)).snapshot
          else replay with
      | none => .stop budget (.response resp)
      | some bytes =>
          match budget with
          | none => .again bytes delay none
          | some b =>
              match (around.others (attempt + 1) b).allowsRetry (around.reads (attempt + 1)) with
              | (false, b) => .stop (some b) (.response resp)
              | (true, b) => .again bytes delay (some b.recordRetry) := by
  have hreplay : (replay.orElse fun _ => (svc.captureAfter req (around.polls attempt)).snapshot) =
      if replay.isNone then (svc.captureAfter req (around.polls attempt)).snapshot else replay := by
    cases replay <;> rfl
  unfold follow
  dsimp only
  rw [hreplay]
  split
  · rfl
  · cases budget with
    | none => rfl
    | some b =>
        unfold permit BudgetState.permit
        dsimp only
        rcases (around.others (attempt + 1) b).allowsRetry (around.reads (attempt + 1)) with
          ⟨admitted, b'⟩
        cases admitted <;> rfl

theorem bodyBranch_eq_follow {f : Buffered → ℕ → Option ℕ} (hpolicy : svc.policy = some (.body f))
    (resp : Response) :
    svc.bodyBranch around req f attempt replay budget resp =
      svc.follow around req attempt replay budget
        (svc.verdict H (svc.effectiveRetries req) attempt (around.jitter attempt) resp) := by
  rw [verdict, hpolicy, bodyBranch]
  dsimp only
  cases resp.body.collect with
  | error e => rfl
  | ok bytes =>
      dsimp only
      cases f ⟨resp.status, resp.headers, bytes⟩ attempt with
      | none => rfl
      | some delay =>
          dsimp only
          split
          · exact (svc.follow_retry around req _ delay).symm
          · rfl

theorem headersBranch_eq_follow {f : Parts → ℕ → Option ℕ}
    (hpolicy : svc.policy = some (.headers f)) (resp : Response) :
    svc.headersBranch around req f attempt replay budget resp =
      svc.follow around req attempt replay budget
        (svc.verdict H (svc.effectiveRetries req) attempt (around.jitter attempt) resp) := by
  rw [verdict, hpolicy, headersBranch]
  dsimp only
  cases f ⟨resp.status, resp.headers⟩ attempt with
  | none => rfl
  | some delay =>
      dsimp only
      split
      · exact (svc.follow_retry around req _ delay).symm
      · rfl

theorem statusBranch_eq_follow (hpolicy : svc.policy = none) (resp : Response) :
    svc.statusBranch around req attempt replay budget resp =
      svc.follow around req attempt replay budget
        (svc.verdict H (svc.effectiveRetries req) attempt (around.jitter attempt) resp) := by
  rw [verdict, hpolicy, statusBranch]
  dsimp only
  split
  · rfl
  · exact (svc.follow_retry around req _ _).symm

/-- **The three branches are one.**  Each is its verdict and what follows it, though it tests the
attempt, asks the policy, takes the snapshot and locks the budget in an order of its own. -/
theorem turn_eq_follow :
    svc.turn around req attempt replay budget =
      match around.reply attempt (request req attempt replay) with
      | .notReady e => .notReady e
      | .failed e => .stop budget (.error e)
      | .response resp => svc.follow around req attempt replay budget
          (svc.verdict H (svc.effectiveRetries req) attempt (around.jitter attempt) resp) := by
  unfold turn
  split
  · rfl
  · rfl
  · split
    · exact svc.bodyBranch_eq_follow around req ‹_› _
    · exact svc.headersBranch_eq_follow around req ‹_› _
    · exact svc.statusBranch_eq_follow around req ‹_› _

end Branches

end Loop

/-- An outcome that goes with the calls: a response is the one to the last of them, as
the service returns it. -/
def Answered (around : Surroundings H) (attempt : ℕ) (calls : List (Request H)) : Outcome → Prop
  | .response r => ∃ before last resp, calls = before ++ [last] ∧
      around.reply (attempt + before.length) last = .response resp ∧ svc.Returned resp r
  | .error _ => True
  | .unreachable => False

/-- What a turn of the loop is good for. -/
def TurnOk (around : Surroundings H) (req : Request H) (attempt : ℕ)
    (replay : Option (List UInt8)) : Turn → Prop
  | .notReady e => around.reply attempt (request req attempt replay) = .notReady e
  | .stop _ outcome => svc.Answered around attempt [request req attempt replay] outcome
  | .again bytes _ _ => attempt < svc.effectiveRetries req ∧
      (replay.orElse fun _ => (svc.captureAfter req (around.polls attempt)).snapshot) = some bytes

section Turn

variable {svc} {around : Surroundings H} {req : Request H} {attempt : ℕ}
  {replay : Option (List UInt8)}

/-- **One turn.**  It stops with the response it got, if any, or it is not the last and
goes again with what was replayed before or what the capture has. -/
theorem turn_ok {budget : Option BudgetState} {t : Turn}
    (hle : attempt ≤ svc.effectiveRetries req)
    (h : svc.turn around req attempt replay budget = t) :
    svc.TurnOk around req attempt replay t := by
  subst h
  have hanswered : ∀ {resp r}, around.reply attempt (request req attempt replay) = .response resp →
      svc.Returned resp r →
      svc.Answered around attempt [request req attempt replay] (.response r) :=
    fun hreply hreturned => ⟨[], _, _, rfl, hreply, hreturned⟩
  rw [turn_eq_follow]
  split
  · assumption
  · trivial
  · rename_i resp hreply
    unfold follow
    split
    · trivial
    · rename_i hverdict
      exact hanswered hreply (verdict_spec hle hverdict).1
    · rename_i hverdict
      obtain ⟨hreturned, hlt⟩ := verdict_spec hle hverdict
      split
      · exact hanswered hreply hreturned
      · rename_i hreplay
        split
        · exact hanswered hreply hreturned
        · exact ⟨hlt rfl, hreplay⟩

theorem Answered.cons {calls : List (Request H)} {outcome : Outcome} (c : Request H)
    (h : svc.Answered around (attempt + 1) calls outcome) :
    svc.Answered around attempt (c :: calls) outcome := by
  cases outcome with
  | response r =>
      obtain ⟨before, last, resp, rfl, hreply, hreturned⟩ := h
      refine ⟨c :: before, last, resp, rfl, ?_, hreturned⟩
      rwa [List.length_cons, Nat.add_comm before.length 1, ← Nat.add_assoc]
  | error e => trivial
  | unreachable => exact h

end Turn

end RetryService

end Retry
end Noxy
