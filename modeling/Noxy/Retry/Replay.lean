/-
# A retry replays the original body

`src/middleware/retry.rs`: `RetryService::call`, all its turns.

`attempts_answered` and `attempts_replayed` carry the two facts about one turn along
the loop, and `call_replayed` says which bytes the calls after the first send: those
of the capture when the first decision was taken, or none for a body that is known
to be empty.  `retry_replays_exactly` is the whole: at most `max_retries` replays,
each with the data of the original body, which was read to its end within the limit,
and the response to the last call, never `unreachable!()`.
-/

import Mathlib.Data.UInt
import Noxy.Retry.Service

namespace Noxy
namespace Retry

open Http

namespace RetryService

section Attempts

variable {H : HttpCrate} (svc : RetryService) (around : Surroundings H) (req : Request H)

/-- **The loop ends** within the turns it has, with the response to its last call. -/
theorem attempts_answered (n : ℕ) :
    ∀ (attempt : ℕ) (replay : Option (List UInt8)) (budget : Option BudgetState),
      attempt + n = svc.effectiveRetries req →
      (svc.attempts around req (n + 1) attempt replay budget).calls.length ≤ n + 1 ∧
        svc.Answered around attempt (svc.attempts around req (n + 1) attempt replay budget).calls
          (svc.attempts around req (n + 1) attempt replay budget).outcome := by
  induction n with
  | zero =>
      intro attempt replay budget hlast
      rw [attempts]
      split
      · exact ⟨Nat.zero_le _, trivial⟩
      · rename_i hstop
        exact ⟨le_rfl, turn_ok (by omega) hstop⟩
      · rename_i hagain
        have hlt := (turn_ok (by omega) hagain).1
        omega
  | succ n ih =>
      intro attempt replay budget hlast
      rw [attempts]
      split
      · exact ⟨Nat.zero_le _, trivial⟩
      · rename_i hstop
        exact ⟨Nat.succ_le_succ (Nat.zero_le _), turn_ok (by omega) hstop⟩
      · rename_i bytes delay budget' hagain
        obtain ⟨hlen, hanswered⟩ := ih (attempt + 1) (some bytes) budget' (by omega)
        exact ⟨Nat.succ_le_succ hlen, hanswered.cons _⟩

/-- **A replay stays the same** to the end. -/
theorem attempts_replayed (bytes : List UInt8) (n : ℕ) :
    ∀ (attempt : ℕ) (budget : Option BudgetState), attempt + n = svc.effectiveRetries req →
      ∀ c ∈ (svc.attempts around req n (attempt + 1) (some bytes) budget).calls,
        c = request req 1 (some bytes) := by
  induction n with
  | zero => exact fun _ _ _ c hc => absurd hc List.not_mem_nil
  | succ n ih =>
      intro attempt budget hn c hc
      rw [attempts] at hc
      split at hc
      · exact absurd hc List.not_mem_nil
      · exact List.mem_singleton.mp hc
      · rename_i bytes' delay budget' hagain
        obtain rfl : bytes = bytes' := Option.some.inj (turn_ok (by omega) hagain).2
        rcases List.mem_cons.mp hc with rfl | hc
        · rfl
        · exact ih (attempt + 1) budget' (by omega) c hc

/-- **What is replayed.**  The calls after the first send the bytes of the capture, or
nothing for a body that is known to be empty. -/
theorem call_replayed (budget : Option BudgetState) :
    (∀ c ∈ (svc.call around req budget).calls.head?, c = request req 0 none) ∧
      ((svc.call around req budget).calls.tail = [] ∨ ∃ bytes,
        0 < svc.effectiveRetries req ∧
        ((if bodyKnownEmpty req then some [] else none).orElse fun _ =>
          (svc.captureAfter req (around.polls 0)).snapshot) = some bytes ∧
        ∀ c ∈ (svc.call around req budget).calls.tail, c = request req 1 (some bytes)) := by
  rw [call, attempts]
  split
  · exact ⟨fun c hc => (by cases hc), .inl rfl⟩
  · exact ⟨fun c hc => (Option.some.inj hc).symm, .inl rfl⟩
  · rename_i bytes delay budget' hagain
    obtain ⟨hlt, hreplay⟩ := turn_ok (Nat.zero_le _) hagain
    refine ⟨fun c hc => (Option.some.inj hc).symm, .inr ⟨bytes, hlt, hreplay, ?_⟩⟩
    exact attempts_replayed svc around req bytes _ 0 budget' (Nat.zero_add _)

/-- The first turn calls the inner service, if that is ready. -/
theorem call_ne_nil (budget : Option BudgetState)
    (hready : ∀ e, around.reply 0 (request req 0 none) ≠ .notReady e) :
    (svc.call around req budget).calls ≠ [] := by
  rw [call, attempts]
  split
  · rename_i hnot
    exact absurd (turn_ok (Nat.zero_le _) hnot) (hready _)
  · exact List.cons_ne_nil _ _
  · exact List.cons_ne_nil _ _

/-- With a retry to come the method is on the allowlist, so a body that is not known to be empty
is recorded. -/
theorem snapshot_captureAfter (hpos : 0 < svc.effectiveRetries req)
    (hknown : ¬ bodyKnownEmpty req = true) (polls : ℕ) :
    (svc.captureAfter req polls).snapshot =
      if req.body.frames.length < polls ∧ req.body.ending = .eof ∧
          req.body.data.length ≤ svc.maxReplayBodyBytes then some req.body.data else none := by
  have hretryable : svc.methodRetryable req.method = true := by
    by_contra hnot
    rw [effectiveRetries, if_neg hnot] at hpos
    exact Nat.lt_irrefl 0 hpos
  rw [captureAfter, Bool.not_eq_true _ |>.mp hknown, hretryable, if_neg (by decide),
    RecordingBody.snapshot_polls]

/-- The bytes to replay are the data of the body, if an exact size of zero means that
there is none. -/
theorem replay_eq_data (hhint : req.body.exact = some 0 → req.body.data = [])
    (hpos : 0 < svc.effectiveRetries req) {polls : ℕ} {bytes : List UInt8}
    (h : ((if bodyKnownEmpty req then some [] else none).orElse fun _ =>
      (svc.captureAfter req polls).snapshot) = some bytes) :
    bytes = req.body.data ∧ (req.body.exact = some 0 ∨ (req.body.frames.length < polls ∧
      req.body.ending = .eof ∧ req.body.data.length ≤ svc.maxReplayBodyBytes)) := by
  by_cases hknown : bodyKnownEmpty req = true
  · rw [if_pos hknown] at h
    have hexact : req.body.exact = some 0 := beq_iff_eq.mp hknown
    exact ⟨(Option.some.inj h).symm.trans (hhint hexact).symm, .inl hexact⟩
  · rw [if_neg hknown] at h
    change (svc.captureAfter req polls).snapshot = some bytes at h
    rw [snapshot_captureAfter svc req hpos hknown] at h
    split at h
    · rename_i hcomplete
      exact ⟨(Option.some.inj h).symm, .inr hcomplete⟩
    · cases h

end Attempts

/-- A call carries the original request, with its data in one piece. -/
structure Replays {H : HttpCrate} (req c : Request H) : Prop where
  method : c.method = req.method
  uri : c.uri = req.uri
  version : c.version = req.version
  headers : c.headers = req.headers
  data : c.body.data = req.body.data
  ending : c.body.ending = .eof

/-- **A retry replays exactly the original body, or there is none.**  Of a request whose
body has no data if its exact size is zero: the service calls the inner service at most
`max_retries + 1` times, and once if the method is not on the allowlist and the inner
service is ready.  It calls it again only if the body is known to be empty, or had been
read to its end without an error and is within the limit, and then with the original
request and data.  It returns the response to its last call, if any, and does not reach
the end of the loop. -/
theorem retry_replays_exactly {H : HttpCrate} (svc : RetryService) (around : Surroundings H)
    (req : Request H) (budget : Option BudgetState)
    (hhint : req.body.exact = some 0 → req.body.data = []) :
    (svc.call around req budget).calls.length ≤ svc.maxRetries + 1 ∧
    (svc.methodRetryable req.method = false →
      (svc.call around req budget).calls.length ≤ 1 ∧
      ((∀ e, around.reply 0 (request req 0 none) ≠ .notReady e) →
        (svc.call around req budget).calls.length = 1)) ∧
    (1 < (svc.call around req budget).calls.length →
      req.body.exact = some 0 ∨ (req.body.frames.length < around.polls 0 ∧
        req.body.ending = .eof ∧ req.body.data.length ≤ svc.maxReplayBodyBytes)) ∧
    (∀ c ∈ (svc.call around req budget).calls.tail, Replays req c) ∧
    svc.Answered around 0 (svc.call around req budget).calls
      (svc.call around req budget).outcome := by
  obtain ⟨hlen, hanswered⟩ := attempts_answered svc around req (svc.effectiveRetries req) 0
    (if bodyKnownEmpty req then some [] else none)
    (budget.map fun b => (around.others 0 b).recordRequest (around.reads 0)) (Nat.zero_add _)
  rw [← call] at hlen hanswered
  obtain ⟨_, hreplayed⟩ := call_replayed svc around req budget
  have hle : svc.effectiveRetries req ≤ svc.maxRetries := by
    unfold effectiveRetries
    split <;> omega
  refine ⟨by omega, fun hmethod => ?_, fun hmore => ?_, fun c hc => ?_, hanswered⟩
  · -- Off the allowlist there are no retries, and a ready service is called once.
    have hzero : svc.effectiveRetries req = 0 := by
      rw [effectiveRetries, hmethod, if_neg Bool.false_ne_true]
    refine ⟨by omega, fun hready => ?_⟩
    have hpos := List.length_pos_iff.mpr (call_ne_nil svc around req budget hready)
    omega
  · rcases hreplayed with htail | ⟨bytes, hpos, hbytes, _⟩
    · have := congrArg List.length htail
      rw [List.length_tail, List.length_nil] at this
      omega
    · exact (replay_eq_data svc req hhint hpos hbytes).2
  · rcases hreplayed with htail | ⟨bytes, hpos, hbytes, hcalls⟩
    · rw [htail] at hc
      exact absurd hc List.not_mem_nil
    · obtain rfl := (replay_eq_data svc req hhint hpos hbytes).1
      rw [hcalls c hc]
      exact ⟨rfl, rfl, rfl, rfl, data_fullBody _, rfl⟩

/-- A `PUT` of two bytes in two frames. -/
def putRequest : Request HttpCrate.plain :=
  ⟨"PUT", .ofPath (some "a") "/", "HTTP/1.1", [], none, [],
    ⟨[.data [1], .data [2]], .eof, none⟩⟩

/-- An inner service that reads the whole body and is unavailable the first time. -/
def unavailableOnce : Surroundings HttpCrate.plain where
  reply attempt _ := .response ⟨if attempt = 0 then 503 else 200, [], emptyBody⟩
  polls _ := 3
  jitter _ _ := 0
  others _ b := b
  reads _ := ⟨0, 0⟩

/-- The hypothesis of `retry_replays_exactly` is met by a `PUT` that is answered 503 at
first, with a limit of two bytes: it is sent once more. -/
theorem retry_replays_exactly_put :
    (call ⟨[503], 3, 0, 0, none, 2, some ["PUT"]⟩ unavailableOnce putRequest none).calls.length =
        2 ∧
      ∀ c ∈ (call ⟨[503], 3, 0, 0, none, 2, some ["PUT"]⟩ unavailableOnce putRequest
        none).calls.tail, Replays putRequest c :=
  ⟨by decide, (retry_replays_exactly ⟨[503], 3, 0, 0, none, 2, some ["PUT"]⟩ unavailableOnce
    putRequest none fun h => nomatch h).2.2.2.1⟩

end RetryService

end Retry
end Noxy
