/-
# What a retry passes on of a request

`src/middleware/retry.rs`: the request that `RetryService::call` builds for each attempt.

The request is taken apart and built anew each time, from its method, URI, version and
headers.  None of its extensions is put back, so an `UpstreamTarget` that an outer `Router` set
is lost and the request goes to the default upstream (`retry_drops_upstream_target`).  The
body of the first attempt is the original stream, but a replay is made of the captured data,
without trailers.

`forwarded_whole_iff` is the exact condition under which every attempt, in all
surroundings, passes on the whole request: it has no extensions, and no trailers or no
chance of a replay.  What gives it a chance is said by `MayReplay`.
-/

import Noxy.Retry.Replay

namespace Noxy
namespace Http

/-- The trailers of a body. -/
def Body.trailers (body : Body) : HeaderMap :=
  body.frames.flatMap fun
    | .data _ => []
    | .trailers lines => lines

end Http

namespace Retry

open Http

/-- A call passes on the request: all but the data of its body. -/
structure Forwards {H : HttpCrate} (req c : Request H) : Prop where
  method : c.method = req.method
  uri : c.uri = req.uri
  version : c.version = req.version
  headers : c.headers = req.headers
  upstreamTarget : c.upstreamTarget = req.upstreamTarget
  extensions : c.extensions = req.extensions
  trailers : c.body.trailers = req.body.trailers

namespace RetryService

variable {H : HttpCrate} (svc : RetryService)

/-- Some response to the first attempt makes the service ask for a retry. -/
def MayAsk : Prop :=
  match svc.policy with
  | some (.body f) => ∃ resp, (f resp 0).isSome
  | some (.headers f) => ∃ parts, (f parts 0).isSome
  | none => svc.statuses ≠ []

/-- The request may be sent a second time: retries are allowed and may be asked for, and its
body is known to be empty or can be captured. -/
def MayReplay (req : Request H) : Prop :=
  0 < svc.effectiveRetries req ∧ svc.MayAsk ∧
    (req.body.exact = some 0 ∨
      req.body.ending = .eof ∧ req.body.data.length ≤ svc.maxReplayBodyBytes)

/-! ### The calls of a request -/

theorem trailers_fullBody (bytes : List UInt8) : (fullBody bytes).trailers = [] := by
  unfold fullBody Body.trailers
  split <;> rfl

/-- The request has no extensions. -/
def Bare (req : Request H) : Prop := req.upstreamTarget = none ∧ req.extensions = []

theorem forwards_first (req : Request H) (replay : Option (List UInt8)) :
    Forwards req (request req 0 replay) ↔ Bare req :=
  ⟨fun h => ⟨h.upstreamTarget.symm, h.extensions.symm⟩,
    fun h => ⟨rfl, rfl, rfl, rfl, h.1.symm, h.2.symm, rfl⟩⟩

theorem forwards_replay (req : Request H) (bytes : List UInt8) :
    Forwards req (request req 1 (some bytes)) ↔ Bare req ∧ req.body.trailers = [] := by
  constructor
  · intro h
    exact ⟨⟨h.upstreamTarget.symm, h.extensions.symm⟩,
      h.trailers.symm.trans (trailers_fullBody bytes)⟩
  · rintro ⟨⟨htarget, hextensions⟩, htrailers⟩
    exact ⟨rfl, rfl, rfl, rfl, htarget.symm, hextensions.symm,
      (trailers_fullBody bytes).trans htrailers.symm⟩

/-- A verdict to retry needs a response that is asked to be retried. -/
theorem mayAsk_of_verdict {maxRetries : ℕ} {jitter : (upper : ℕ) → Fin (upper + 1)}
    {resp r : Response} {delay : ℕ}
    (h : svc.verdict H maxRetries 0 jitter resp = .ok (.retry r delay)) :
    svc.MayAsk := by
  rw [MayAsk]
  rw [verdict] at h
  cases hpolicy : svc.policy with
  | none =>
      rw [hpolicy] at h
      dsimp only at h ⊢
      split at h
      · cases h
      · rename_i hneither
        exact List.ne_nil_of_mem (not_not.mp fun hmem => hneither (.inr hmem))
  | some policy =>
      rw [hpolicy] at h
      cases policy with
      | headers f =>
          dsimp only at h ⊢
          split at h
          · rename_i hask
            exact ⟨_, Option.isSome_of_mem hask⟩
          · cases h
      | body f =>
          dsimp only at h ⊢
          split at h
          · cases h
          · split at h
            · rename_i hask
              exact ⟨_, Option.isSome_of_mem hask⟩
            · cases h

/-- The bytes to replay come from a body that may be replayed. -/
theorem mayReplay_of_turn {around : Surroundings H} {req : Request H}
    {budget budget' : Option BudgetState} {bytes : List UInt8} {delay : ℕ}
    (h : svc.turn around req 0 (if bodyKnownEmpty req then some [] else none) budget =
      .again bytes delay budget') : svc.MayReplay req := by
  obtain ⟨hpos, hreplay⟩ := turn_ok (Nat.zero_le _) h
  have hbody : req.body.exact = some 0 ∨
      req.body.ending = .eof ∧ req.body.data.length ≤ svc.maxReplayBodyBytes := by
    by_cases hknown : req.body.exact = some 0
    · exact .inl hknown
    · exact (svc.replay_eq_data req (fun hexact => absurd hexact hknown) hpos hreplay).2.imp_right
        And.right
  refine ⟨hpos, ?_, hbody⟩
  rw [turn_eq_follow] at h
  split at h
  · cases h
  · cases h
  · unfold follow at h
    split at h
    · cases h
    · cases h
    · rename_i hverdict
      exact svc.mayAsk_of_verdict hverdict

/-! ### Surroundings in which a request is sent again -/

/-- A response that is asked to be retried. -/
theorem exists_verdict_of_mayAsk (h : svc.MayAsk) {maxRetries : ℕ} (hpos : 0 < maxRetries)
    (jitter : (upper : ℕ) → Fin (upper + 1)) :
    ∃ resp r delay, svc.verdict H maxRetries 0 jitter resp = .ok (.retry r delay) := by
  rw [MayAsk] at h
  simp only [verdict]
  cases hpolicy : svc.policy with
  | none =>
      rw [hpolicy] at h
      dsimp only at h ⊢
      obtain ⟨status, hstatus⟩ := List.exists_mem_of_ne_nil _ h
      have hneither : ¬ (0 = maxRetries ∨ status ∉ svc.statuses) :=
        not_or.mpr ⟨by omega, not_not.mpr hstatus⟩
      exact ⟨⟨status, [], emptyBody⟩, ⟨status, [], emptyBody⟩, _, if_neg hneither⟩
  | some policy =>
      rw [hpolicy] at h
      cases policy with
      | headers f =>
          dsimp only at h ⊢
          obtain ⟨⟨status, headers⟩, hask⟩ := h
          obtain ⟨delay, hdelay⟩ := Option.isSome_iff_exists.mp hask
          refine ⟨⟨status, headers, emptyBody⟩, ⟨status, headers, emptyBody⟩, delay, ?_⟩
          dsimp only
          rw [hdelay]
          exact if_pos hpos
      | body f =>
          dsimp only at h ⊢
          obtain ⟨⟨status, headers, bytes⟩, hask⟩ := h
          obtain ⟨delay, hdelay⟩ := Option.isSome_iff_exists.mp hask
          have hcollect : (fullBody bytes).collect = .ok bytes :=
            congrArg Except.ok (data_fullBody bytes)
          refine ⟨⟨status, headers, fullBody bytes⟩, ⟨status, headers, fullBody bytes⟩, delay, ?_⟩
          dsimp only
          rw [hcollect]
          dsimp only
          rw [hdelay]
          exact if_pos hpos

/-- An inner service that reads the whole body and gives the same response each time. -/
def answering (req : Request H) (resp : Response) : Surroundings H where
  reply _ _ := .response resp
  polls _ := req.body.frames.length + 1
  jitter _ upper := ⟨0, Nat.succ_pos upper⟩
  others _ b := b
  reads _ := ⟨0, 0⟩

/-- What a body that may be replayed is replayed with. -/
theorem exists_replay_bytes {req : Request H} (h : svc.MayReplay req) :
    ∃ bytes, ((if bodyKnownEmpty req then some [] else none).orElse fun _ =>
      (svc.captureAfter req (req.body.frames.length + 1)).snapshot) = some bytes := by
  obtain ⟨hpos, _, hbody⟩ := h
  by_cases hknown : bodyKnownEmpty req = true
  · exact ⟨[], by rw [if_pos hknown]; rfl⟩
  · have hcaptured := hbody.resolve_left fun hexact => hknown (beq_iff_eq.mpr hexact)
    refine ⟨req.body.data, ?_⟩
    rw [if_neg hknown]
    change (svc.captureAfter req _).snapshot = _
    rw [snapshot_captureAfter svc req hpos hknown, if_pos ⟨Nat.lt_succ_self _, hcaptured⟩]

/-- A turn whose inner service is ready makes its call. -/
theorem request_mem_attempts {around : Surroundings H} {req : Request H} (n attempt : ℕ)
    (replay : Option (List UInt8)) (budget : Option BudgetState)
    (hle : attempt ≤ svc.effectiveRetries req)
    (hready : ∀ e, around.reply attempt (request req attempt replay) ≠ .notReady e) :
    request req attempt replay ∈ (svc.attempts around req (n + 1) attempt replay budget).calls := by
  rw [attempts]
  split
  · rename_i hnot
    exact absurd (turn_ok hle hnot) (hready _)
  · exact List.mem_singleton_self _
  · exact List.mem_cons_self

/-- **A request that may be replayed is replayed**, in some surroundings. -/
theorem exists_replayed {req : Request H} (h : svc.MayReplay req) :
    ∃ around bytes, request req 1 (some bytes) ∈ (svc.call around req none).calls := by
  obtain ⟨bytes, hbytes⟩ := svc.exists_replay_bytes h
  obtain ⟨hpos, hask, _⟩ := h
  obtain ⟨resp, r, delay, hverdict⟩ := svc.exists_verdict_of_mayAsk (H := H) hask hpos
    fun upper => ⟨0, Nat.succ_pos upper⟩
  refine ⟨answering req resp, bytes, ?_⟩
  have hturn : svc.turn (answering req resp) req 0 (if bodyKnownEmpty req then some [] else none)
      none = .again bytes delay none := by
    rw [turn_eq_follow]
    unfold follow answering
    dsimp only
    rw [hverdict]
    dsimp only
    rw [hbytes]
    rfl
  obtain ⟨n, hn⟩ : ∃ n, svc.effectiveRetries req = n + 1 := ⟨_, (Nat.succ_pred_eq_of_pos hpos).symm⟩
  rw [call, attempts, Option.map_none, hturn, hn]
  exact List.mem_cons_of_mem _ (svc.request_mem_attempts n 1 (some bytes) none (by omega)
    fun e he => by cases he)

/-- **Retry passes on everything of the request.**  In all surroundings every call has the
method, URI, version, headers, extensions and trailers of the request, exactly if the
request has no extensions, and no trailers or no chance to be replayed. -/
theorem forwarded_whole_iff (req : Request H) :
    (∀ (around : Surroundings H) (budget : Option BudgetState),
        ∀ c ∈ (svc.call around req budget).calls, Forwards req c) ↔
      Bare req ∧ (req.body.trailers = [] ∨ ¬ svc.MayReplay req) := by
  constructor
  · intro h
    have hfirst : request req 0 (if bodyKnownEmpty req then some [] else none) ∈
        (svc.call (answering req ⟨200, [], emptyBody⟩) req none).calls :=
      svc.request_mem_attempts _ 0 _ _ (Nat.zero_le _) fun e he => by cases he
    refine ⟨(forwards_first req _).mp (h _ none _ hfirst), ?_⟩
    by_cases hmay : svc.MayReplay req
    · obtain ⟨around, bytes, hmem⟩ := svc.exists_replayed hmay
      exact .inl ((forwards_replay req bytes).mp (h around none _ hmem)).2
    · exact .inr hmay
  · rintro ⟨hbare, htrailers⟩ around budget c hc
    rw [call, attempts] at hc
    split at hc
    · exact absurd hc List.not_mem_nil
    · rw [List.mem_singleton.mp hc]
      exact (forwards_first req _).mpr hbare
    · rename_i bytes delay budget' hagain
      rcases List.mem_cons.mp hc with rfl | hc
      · exact (forwards_first req _).mpr hbare
      · -- A call after the first: the request may be replayed, so it has no trailers.
        rw [attempts_replayed svc around req bytes _ 0 budget' (Nat.zero_add _) c hc]
        exact (forwards_replay req bytes).mpr
          ⟨hbare, htrailers.resolve_right (not_not.mpr (svc.mayReplay_of_turn hagain))⟩

/-- A `PUT` of two bytes and a trailer that an outer router sends to `b`, with the extension of an
outer layer. -/
def routedRequest : Request HttpCrate.plain :=
  { putRequest with
    upstreamTarget := some ⟨"b", "http"⟩
    extensions := [("RequestId", [7])]
    body := ⟨[.data [1], .data [2], .trailers [("x-checksum", [3])]], .eof, none⟩ }

/-- An inner service that reads the whole of `routedRequest` and is unavailable once. -/
def unavailableToRouted : Surroundings HttpCrate.plain :=
  { unavailableOnce with polls := fun _ => 4 }

/-- **The extensions are lost, and the trailers of a replay.**  Of a request that a router sends to
`b`, both attempts have no target and no other extension, and the second no trailer. -/
theorem retry_drops_upstream_target :
    ((call ⟨[503], 3, 0, 0, none, 2, some ["PUT"]⟩ unavailableToRouted routedRequest none).calls.map
        fun c => (c.upstreamTarget.isSome, c.extensions.length, c.body.trailers)) =
      [(false, 0, [("x-checksum", [3])]), (false, 0, [])] ∧
    (routedRequest.upstreamTarget.isSome, routedRequest.extensions.length,
        routedRequest.body.trailers) =
      (true, 1, [("x-checksum", [3])]) :=
  ⟨by decide, rfl⟩

end RetryService

end Retry
end Noxy
