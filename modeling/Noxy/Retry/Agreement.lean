/-
# The three retry policies agree

`src/middleware/retry.rs`: the three branches of `RetryService::call`.

The retry logic is written out three times, to the end of the loop's body: for a policy on the
whole response, whose body is read first, for a policy on its status and headers, and for the
list of statuses.  `RetryService.turn_eq_follow` brings the three to one form.  Of services that
differ in the policy only, take one whose policy on the whole response looks
at the status and headers alone, one whose policy is the same function of those, and, if
that function asks for a retry on the listed statuses after the delay of `Retry-After` or
the backoff, the one without a policy.  They come to the same verdicts (`sameVerdict_body`,
`sameVerdict_status`) on a response whose body can be read, and `attempts_agree` carries
that along the loop: the same calls, delays and budget, and a response that is the same but
for how its data is cut into frames (`policies_agree`).
-/

import Noxy.Retry.Replay

namespace Noxy
namespace Retry

open Http

/-- The same status, headers and data bytes. -/
structure SameResponse (a b : Response) : Prop where
  status : a.status = b.status
  headers : a.headers = b.headers
  data : a.body.data = b.body.data

theorem SameResponse.refl (a : Response) : SameResponse a a := ⟨rfl, rfl, rfl⟩

/-- The same verdict, on the same response. -/
inductive SameVerdict : Except String Verdict → Except String Verdict → Prop where
  | accept {a b : Response} : SameResponse a b → SameVerdict (.ok (.accept a)) (.ok (.accept b))
  | retry {a b : Response} (delay : ℕ) : SameResponse a b →
      SameVerdict (.ok (.retry a delay)) (.ok (.retry b delay))

/-- The same end of a call. -/
inductive SameOutcome : Outcome → Outcome → Prop where
  | response {a b : Response} : SameResponse a b → SameOutcome (.response a) (.response b)
  | error (err : String) : SameOutcome (.error err) (.error err)
  | unreachable : SameOutcome .unreachable .unreachable

/-- The same turn of the loop. -/
inductive SameTurn : Turn → Turn → Prop where
  | notReady (err : String) : SameTurn (.notReady err) (.notReady err)
  | stop (budget : Option BudgetState) {a b : Outcome} : SameOutcome a b →
      SameTurn (.stop budget a) (.stop budget b)
  | again (bytes : List UInt8) (delay : ℕ) (budget : Option BudgetState) :
      SameTurn (.again bytes delay budget) (.again bytes delay budget)

/-- The same calls with the same bodies, the same delays and budget, and the same response. -/
structure SameRun {H : HttpCrate} (a b : Run H) : Prop where
  calls : a.calls = b.calls
  sleeps : a.sleeps = b.sleeps
  budget : a.budget = b.budget
  outcome : SameOutcome a.outcome b.outcome

namespace RetryService

variable {H : HttpCrate} (svc : RetryService)

/-- The service with another policy. -/
def withPolicy (policy : Option PolicyKind) : RetryService := { svc with policy := policy }

/-- A body policy that ignores the body. -/
def bodyPolicy (f : Parts → ℕ → Option ℕ) : PolicyKind :=
  .body fun resp => f ⟨resp.status, resp.headers⟩

/-- The function that the list of statuses stands for. -/
def onStatuses (H : HttpCrate) (jitter : ℕ → (upper : ℕ) → Fin (upper + 1)) :
    Parts → ℕ → Option ℕ := fun parts attempt =>
  if parts.status ∈ svc.statuses then
    some ((retryAfterDelay H parts.headers).getD
      (exponentialDelay svc.backoff svc.maxBackoff attempt (jitter attempt)))
  else none

section Verdicts

variable {svc} {maxRetries attempt : ℕ} {jitter : (upper : ℕ) → Fin (upper + 1)} {resp : Response}

/-- The branch for a body policy that ignores the body, against that for the headers. -/
theorem sameVerdict_body (f : Parts → ℕ → Option ℕ) (hread : resp.body.ending = .eof) :
    SameVerdict
      ((svc.withPolicy (some (bodyPolicy f))).verdict H maxRetries attempt jitter resp)
      ((svc.withPolicy (some (.headers f))).verdict H maxRetries attempt jitter resp) := by
  have hcollect : resp.body.collect = .ok resp.body.data := by
    rw [Body.collect, hread]
  have hsame : SameResponse ⟨resp.status, resp.headers, fullBody resp.body.data⟩ resp :=
    ⟨rfl, rfl, data_fullBody _⟩
  unfold verdict withPolicy bodyPolicy
  dsimp only
  rw [hcollect]
  dsimp only
  cases f ⟨resp.status, resp.headers⟩ attempt with
  | none => exact .accept hsame
  | some delay =>
      dsimp only
      by_cases hlt : attempt < maxRetries
      · rw [if_pos hlt, if_pos hlt]
        exact .retry delay hsame
      · rw [if_neg hlt, if_neg hlt]
        exact .accept hsame

/-- The branch for the statuses, against that for the headers. -/
theorem sameVerdict_status (jitters : ℕ → (upper : ℕ) → Fin (upper + 1))
    (hle : attempt ≤ maxRetries) :
    SameVerdict
      ((svc.withPolicy none).verdict H maxRetries attempt (jitters attempt) resp)
      ((svc.withPolicy (some (.headers (svc.onStatuses H jitters)))).verdict H maxRetries attempt
        (jitters attempt) resp) := by
  unfold verdict withPolicy onStatuses
  dsimp only
  by_cases hstatus : resp.status ∈ svc.statuses
  · rw [if_pos hstatus]
    dsimp only
    by_cases hlt : attempt < maxRetries
    · rw [if_neg (by simp [hstatus]; omega), if_pos hlt]
      exact .retry _ (.refl resp)
    · rw [if_pos (.inl (by omega)), if_neg hlt]
      exact .accept (.refl resp)
  · rw [if_pos (.inr hstatus), if_neg hstatus]
    exact .accept (.refl resp)

end Verdicts

section Runs

variable (around : Surroundings H) (req : Request H) {p q : Option PolicyKind}

/-- **One turn.**  Where the verdicts are the same, so is the rest of the three branches. -/
theorem turn_agree {attempt : ℕ} (replay : Option (List UInt8)) (budget : Option BudgetState)
    (h : ∀ resp, around.reply attempt (request req attempt replay) = .response resp →
      SameVerdict
        ((svc.withPolicy p).verdict H (svc.effectiveRetries req) attempt (around.jitter attempt)
          resp)
        ((svc.withPolicy q).verdict H (svc.effectiveRetries req) attempt (around.jitter attempt)
          resp)) :
    SameTurn ((svc.withPolicy p).turn around req attempt replay budget)
      ((svc.withPolicy q).turn around req attempt replay budget) := by
  have hretries : ∀ r, (svc.withPolicy r).effectiveRetries req = svc.effectiveRetries req :=
    fun _ => rfl
  have hcapture : ∀ r, (svc.withPolicy r).captureAfter req (around.polls attempt) =
      svc.captureAfter req (around.polls attempt) := fun _ => rfl
  rw [turn_eq_follow, turn_eq_follow]
  unfold follow
  cases hreply : around.reply attempt (request req attempt replay) with
  | notReady e => exact .notReady e
  | failed e => exact .stop budget (.error e)
  | response resp =>
      dsimp only
      rw [hretries, hretries, hcapture, hcapture]
      have hverdict := h resp hreply
      generalize (svc.withPolicy p).verdict H (svc.effectiveRetries req) attempt
        (around.jitter attempt) resp = v at hverdict ⊢
      generalize (svc.withPolicy q).verdict H (svc.effectiveRetries req) attempt
        (around.jitter attempt) resp = w at hverdict ⊢
      cases hverdict with
      | accept hsame => exact .stop budget (.response hsame)
      | retry delay hsame =>
          dsimp only
          split
          · exact .stop budget (.response hsame)
          · split
            · exact .stop _ (.response hsame)
            · exact .again _ delay _

/-- **The whole loop.** -/
theorem attempts_agree
    (h : ∀ attempt ≤ svc.effectiveRetries req, ∀ c resp,
      around.reply attempt c = .response resp → SameVerdict
        ((svc.withPolicy p).verdict H (svc.effectiveRetries req) attempt (around.jitter attempt)
          resp)
        ((svc.withPolicy q).verdict H (svc.effectiveRetries req) attempt (around.jitter attempt)
          resp)) (n : ℕ) :
    ∀ (attempt : ℕ) (replay : Option (List UInt8)) (budget : Option BudgetState),
      attempt + n = svc.effectiveRetries req + 1 →
      SameRun ((svc.withPolicy p).attempts around req n attempt replay budget)
        ((svc.withPolicy q).attempts around req n attempt replay budget) := by
  induction n with
  | zero => exact fun _ _ budget _ => ⟨rfl, rfl, rfl, .unreachable⟩
  | succ n ih =>
      intro attempt replay budget hn
      have hturn := svc.turn_agree around req (p := p) (q := q) replay budget
        (h attempt (by omega) (request req attempt replay))
      rw [attempts, attempts]
      generalize (svc.withPolicy p).turn around req attempt replay budget = t at hturn ⊢
      generalize (svc.withPolicy q).turn around req attempt replay budget = u at hturn ⊢
      cases hturn with
      | notReady e => exact ⟨rfl, rfl, rfl, .error e⟩
      | stop budget' houtcome => exact ⟨rfl, rfl, rfl, houtcome⟩
      | again bytes delay budget' =>
          have hrest := ih (attempt + 1) (some bytes) budget' (by omega)
          exact ⟨congrArg (request req attempt replay :: ·) hrest.calls,
            congrArg (delay :: ·) hrest.sleeps, hrest.budget, hrest.outcome⟩

/-- **The three retry policies agree.**  For a decision function on status, headers and
attempt, any allowlist, budget, number of retries and responses whose bodies can be read,
with the capture in the same state at each decision: a body policy that ignores the body
and a headers policy run alike, and so does the list of statuses if the function is the one
it stands for. -/
theorem policies_agree (budget : Option BudgetState)
    (hread : ∀ attempt c resp, around.reply attempt c = .response resp →
      resp.body.ending = .eof) :
    (∀ f : Parts → ℕ → Option ℕ,
      SameRun ((svc.withPolicy (some (bodyPolicy f))).call around req budget)
        ((svc.withPolicy (some (.headers f))).call around req budget)) ∧
    SameRun ((svc.withPolicy none).call around req budget)
      ((svc.withPolicy (some (.headers (svc.onStatuses H around.jitter)))).call around req
        budget) := by
  constructor
  · intro f
    exact svc.attempts_agree around req
      (fun attempt _ c resp hreply => sameVerdict_body f (hread attempt c resp hreply)) _ 0 _ _
      (Nat.zero_add _)
  · exact svc.attempts_agree around req
      (fun attempt hle c resp _ => sameVerdict_status around.jitter hle) _ 0 _ _ (Nat.zero_add _)

end Runs

/-- The hypothesis of `policies_agree` is met by a service that is unavailable once: the three
policies send the request twice. -/
theorem policies_agree_put :
    (call ⟨[503], 3, 0, 0, none, 2, some ["PUT"]⟩ unavailableOnce putRequest none).calls.length =
        2 ∧
      SameRun
        (call ⟨[503], 3, 0, 0, none, 2, some ["PUT"]⟩ unavailableOnce putRequest none)
        (call ⟨[503], 3, 0, 0, some (.headers (onStatuses ⟨[503], 3, 0, 0, none, 2, some ["PUT"]⟩
          .plain unavailableOnce.jitter)), 2, some ["PUT"]⟩ unavailableOnce putRequest none) := by
  refine ⟨by decide, (policies_agree ⟨[503], 3, 0, 0, none, 2, some ["PUT"]⟩ unavailableOnce
    putRequest none ?_).2⟩
  rintro attempt c resp hreply
  cases hreply
  rfl

end RetryService

end Retry
end Noxy
