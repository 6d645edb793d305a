/-
# Upgrades on the client's side

`src/lib.rs`: `HyperServiceAdapter::call`, which hands a client's request to the service
chain.  If the request asks for an upgrade, the adapter takes the client's half of it
(`hyper::upgrade::on`) beforehand, and when the answer is a 101 it relays between the two
halves.  At the other end of the chain `ForwardService` leaves the headers of a request
as they are if the request asks for an upgrade.

The two ends decide on their own whether it does: `requests_upgrade` reads every
`Connection` line, the adapter the first one only.  So they agree exactly if no later line
asks for an upgrade that the first one does not (`upgrade_prepared_iff`).  With `keep-alive`
on the first line and `Upgrade` on the second the handshake is relayed and answered by a
101, and no tunnel follows (`second_line_gets_no_tunnel`).
-/

import Noxy.Http.Forward
import Noxy.Http.HopByHop

namespace Noxy
namespace Http

section Detection

variable (H : HttpCrate)

/-- A text has the token `upgrade` between its commas. -/
def asksUpgrade (text : String) : Bool :=
  (splitComma text).any fun token => eqIgnoreAsciiCase (trim token) "upgrade"

/-- `is_upgrade` of `HyperServiceAdapter::call`. -/
def isUpgrade (headers : HeaderMap) : Bool :=
  (((HeaderMap.get headers "connection").bind H.toStr).map asksUpgrade).getD false

/-- A `Connection` value is a text and asks for an upgrade. -/
def AsksUpgrade (v : List UInt8) : Prop := ∃ text, H.toStr v = some text ∧ asksUpgrade text = true

end Detection

/-- What comes of a client's request: the answer, whether the client's half of an upgrade
was taken before, and whether a relay between the two halves was started. -/
structure Exchange where
  response : Except String Response
  clientUpgrade : Bool
  tunnel : Bool

/-- `HyperServiceAdapter::call`, around the service chain `inner`. -/
def HyperServiceAdapter.call {H : HttpCrate} (inner : HttpService H) (req : Request H)
    (world : World H) : Exchange × World H :=
  let clientUpgrade := isUpgrade H req.headers
  match inner req world with
  | (.ok resp, world) => (⟨.ok resp, clientUpgrade, resp.status == 101 && clientUpgrade⟩, world)
  | (.error e, world) => (⟨.error e, clientUpgrade, false⟩, world)

/-- The client is handed the request with all its headers, those of an upgrade among them. -/
def RelayedIntact {H : HttpCrate} (req : Request H) (before after : World H) : Prop :=
  ∃ sent, after.sent = before.sent ++ [sent] ∧ sent.headers = req.headers ∧
    HeaderMap.getAll sent.headers "connection" ≠ []

/-! ### Each detector by the lines it reads -/

variable {H : HttpCrate}

theorem isUpgrade_iff (headers : HeaderMap) :
    isUpgrade H headers = true ↔
      ∃ v, HeaderMap.get headers "connection" = some v ∧ AsksUpgrade H v := by
  unfold isUpgrade AsksUpgrade
  cases hget : HeaderMap.get headers "connection" with
  | none => simp
  | some v => cases htext : H.toStr v <;> simp [htext]

theorem requestsUpgrade_iff (headers : HeaderMap) :
    requestsUpgrade H headers = true ↔
      ∃ v ∈ HeaderMap.getAll headers "connection", AsksUpgrade H v := by
  unfold requestsUpgrade connectionTokens AsksUpgrade asksUpgrade
  simp only [List.any_eq_true, List.mem_flatMap, List.mem_filterMap]
  constructor
  · rintro ⟨token, ⟨text, ⟨v, hv, htext⟩, htoken⟩, hup⟩
    exact ⟨v, hv, text, htext, token, htoken, hup⟩
  · rintro ⟨v, hv, text, htext, token, htoken, hup⟩
    exact ⟨token, ⟨text, ⟨v, hv, htext⟩, htoken⟩, hup⟩

/-- The detectors agree exactly if a later line asks for nothing that the first does not. -/
theorem isUpgrade_eq_requestsUpgrade_iff (headers : HeaderMap) :
    isUpgrade H headers = requestsUpgrade H headers ↔
      ∀ v ∈ (HeaderMap.getAll headers "connection").tail, AsksUpgrade H v →
        ∃ first, HeaderMap.get headers "connection" = some first ∧ AsksUpgrade H first := by
  rw [Bool.eq_iff_iff, isUpgrade_iff, requestsUpgrade_iff, HeaderMap.get_eq_head?]
  cases HeaderMap.getAll headers "connection" with
  | nil => simp
  | cons first rest =>
      simp only [List.head?_cons, Option.some.injEq, exists_eq_left', List.mem_cons,
        List.tail_cons, exists_eq_or_imp]
      constructor
      · exact fun h v hv hasks => h.mpr (.inr ⟨v, hv, hasks⟩)
      · intro h
        constructor
        · exact .inl
        · rintro (hfirst | ⟨v, hv, hasks⟩)
          · exact hfirst
          · exact h v hv hasks

/-! ### The two ends together -/

theorem HyperServiceAdapter.call_clientUpgrade (inner : HttpService H) (req : Request H)
    (world : World H) :
    (HyperServiceAdapter.call inner req world).1.clientUpgrade = isUpgrade H req.headers := by
  unfold HyperServiceAdapter.call
  dsimp only
  split <;> rfl

theorem HyperServiceAdapter.call_world (inner : HttpService H) (req : Request H)
    (world : World H) :
    (HyperServiceAdapter.call inner req world).2 = (inner req world).2 := by
  unfold HyperServiceAdapter.call
  dsimp only
  split <;> simp [*]

/-- No `Connection` line is left of a request that is not an upgrade. -/
theorem getAll_connection_stripHopByHop (headers : HeaderMap) :
    HeaderMap.getAll (stripHopByHop H headers) "connection" = [] := by
  have hstandard : "connection" ∈ hopByHopNames := List.mem_cons_self
  rw [stripHopByHop_eq, HeaderMap.getAll, List.map_eq_nil_iff, List.filter_filter,
    List.filter_eq_nil_iff]
  intro line _ hline
  rw [Bool.and_eq_true, beq_iff_eq, decide_eq_true_eq] at hline
  exact hline.2.2 (hline.1 ▸ hstandard)

/-- `ForwardService` relays the upgrade headers exactly if `requests_upgrade` says so. -/
theorem relayedIntact_iff (fwd : ForwardService H) (out : Outside H) (req : Request H)
    (world : World H) :
    RelayedIntact req world (fwd.call out req world).2 ↔ requestsUpgrade H req.headers = true := by
  have hsent : (fwd.call out req world).2.sent = world.sent ++ [fwd.outgoing req] := rfl
  have hheaders : (fwd.rewriteUri req).headers = req.headers := by
    unfold ForwardService.rewriteUri
    split <;> rfl
  have hout : (fwd.outgoing req).headers =
      if requestsUpgrade H req.headers then req.headers else stripHopByHop H req.headers := by
    unfold ForwardService.outgoing
    dsimp only
    rw [hheaders]
    by_cases hup : requestsUpgrade H req.headers = true
    · rw [if_pos hup, if_pos hup, hheaders]
    · rw [if_neg hup, if_neg hup]
  unfold RelayedIntact
  rw [hsent]
  constructor
  · rintro ⟨sent, hsent, _, hconn⟩
    obtain rfl : fwd.outgoing req = sent := by simpa using hsent
    by_contra hup
    refine hconn ?_
    rw [hout, if_neg hup]
    exact getAll_connection_stripHopByHop req.headers
  · intro hup
    rw [if_pos hup] at hout
    obtain ⟨v, hv, _⟩ := (requestsUpgrade_iff req.headers).mp hup
    refine ⟨fwd.outgoing req, rfl, hout, ?_⟩
    rw [hout]
    exact List.ne_nil_of_mem hv

/-- **Both upgrade detectors agree.**  The adapter decides as `requests_upgrade` does, and a
request is relayed with its upgrade headers exactly if the client's half was taken, exactly
if no `Connection` line after the first asks for an upgrade that the first does not. -/
theorem upgrade_prepared_iff (fwd : ForwardService H) (out : Outside H) (req : Request H)
    (world : World H) :
    (isUpgrade H req.headers = requestsUpgrade H req.headers ∧
        (RelayedIntact req world (HyperServiceAdapter.call (fwd.call out) req world).2 ↔
          (HyperServiceAdapter.call (fwd.call out) req world).1.clientUpgrade = true)) ↔
      ∀ v ∈ (HeaderMap.getAll req.headers "connection").tail, AsksUpgrade H v →
        ∃ first, HeaderMap.get req.headers "connection" = some first ∧ AsksUpgrade H first := by
  rw [HyperServiceAdapter.call_world, HyperServiceAdapter.call_clientUpgrade, relayedIntact_iff,
    ← isUpgrade_eq_requestsUpgrade_iff]
  constructor
  · exact And.left
  · intro h
    exact ⟨h, by simp only [h]⟩

/-- A handshake whose second `Connection` line asks for the upgrade. -/
def splitHandshake : Request .plain :=
  { plainRequest "GET" (.ofPath none "/chat") with
    headers := [("connection", utf8 "keep-alive"), ("connection", utf8 "Upgrade"),
      ("upgrade", utf8 "websocket")] }

/-- A client that answers 101 at once. -/
def switchingOutside : Outside .plain := ⟨fun _ _ => ⟨0, .ok ⟨101, [], emptyBody⟩⟩, fun _ => 0⟩

/-- **The upgrade on the second line is relayed and not tunnelled.**  The upstream is handed
all headers of the handshake and answers 101; the client's half was not taken, and the relay
is not started. -/
theorem second_line_gets_no_tunnel :
    requestsUpgrade .plain splitHandshake.headers = true ∧
      isUpgrade .plain splitHandshake.headers = false ∧
      ((HyperServiceAdapter.call (localhostForward.call switchingOutside) splitHandshake
        plainWorld).2.sent.map fun req => req.headers) = [splitHandshake.headers] ∧
      (HyperServiceAdapter.call (localhostForward.call switchingOutside) splitHandshake
        plainWorld).1 = ⟨.ok ⟨101, [], emptyBody⟩, false, false⟩ :=
  ⟨by decide +kernel, by decide +kernel, by decide +kernel, rfl⟩

end Http
end Noxy
