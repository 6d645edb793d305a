/-
# The requests before a tunnel

`src/lib.rs`: `Proxy::handshake` up to `connect_rx`, over all that a client may send.

The `CONNECT` handler is a service of an HTTP/1 connection, so it is called for one request
after the other until one of them is answered with a 200 and the connection is switched.
What the handler finds goes through a oneshot channel whose sender is taken by the first who
has something to say: a request that is turned down, or the task that waits for the switch.
`handshake` waits for the connection to end and then for the channel.

The sender is gone after the first request that is turned down, but the connection is not.
So the first request decides: a tunnel is opened only for a connection whose only request
is a `CONNECT` that is let in, and after one that is turned down every end is its error
(`first_request_decides`).  A client that is challenged with a 407 and sends its credentials
on the same connection is answered with a 200, and then the connection is dropped.
-/

import Noxy.Lib.Run
import Noxy.Proxy.Authentication

namespace Noxy
namespace Proxy

open Http Lib

/-- The connection that is served: `serve_connection` with upgrades. -/
inductive Conn where
  /-- Waiting for a request. -/
  | serving
  /-- A `CONNECT` was let in, and its answer is on the way. -/
  | switching
  /-- The future has resolved: the connection is switched, and its task not yet told. -/
  | switched
  /-- The future has resolved: the task of the switch has run. -/
  | told
  /-- The future has resolved: the client has closed the connection. -/
  | closed
  | failed (err : String)
  deriving DecidableEq, Repr

/-- What a client and its connection may do next. -/
inductive ConnEvent (H : HttpCrate) where
  | request (req : Request H)
  | close
  | error (err : String)
  /-- The answer to the `CONNECT` is sent, and the connection is switched. -/
  | switch
  /-- The task that waits for the switch runs. -/
  | task

/-- A handshake: whether `connect_tx` is there, what was sent through it, the authority that the
spawned task has, and the requests that the handler was called with and their answers. -/
structure Handshake (H : HttpCrate) where
  conn : Conn
  connectTx : Bool
  sent : Option (Except String String)
  authority : Option String
  seen : List (Request H)
  answers : List Response

namespace Handshake

variable {H : HttpCrate}

def start : Handshake H := ⟨.serving, true, none, none, [], []⟩

/-- `take` of `connect_tx`, and `send`. -/
def send (s : Handshake H) (info : Except String String) : Handshake H :=
  if s.connectTx then { s with connectTx := false, sent := some info } else s

section Step

variable (B : Base64Crate) (text : H.Authority → String)
  (credentials : Option (List (String × String)))

/-- The service, called with a request. -/
def serve (s : Handshake H) (req : Request H) : Handshake H :=
  let (decision, answer) := connect B text credentials req
  let s := { s with seen := s.seen ++ [req], answers := s.answers ++ [answer] }
  match decision with
  | .error msg => s.send (.error msg)
  | .ok authority => { s with conn := .switching, authority := some authority }

/-- The handshake after an event; one that cannot happen changes nothing. -/
def step (s : Handshake H) : ConnEvent H → Handshake H
  | .request req => if s.conn = .serving then s.serve B text credentials req else s
  | .close => if s.conn = .serving then { s with conn := .closed } else s
  | .error err =>
      if s.conn = .serving ∨ s.conn = .switching then { s with conn := .failed err } else s
  | .switch => if s.conn = .switching then { s with conn := .switched } else s
  | .task =>
      match s.conn, s.authority with
      | .switched, some authority => { s.send (.ok authority) with conn := .told }
      | _, _ => s

end Step

/-- What `handshake` has got when the connection has ended and the channel has a value, or none
will come any more. -/
def outcome (s : Handshake H) : Option (Except String String) :=
  match s.conn with
  | .serving | .switching => none
  | .switched | .told => s.sent
  | .closed => some (s.sent.getD (.error "CONNECT handler did not complete"))
  | .failed err => some (.error err)

/-! ### The first request -/

variable {B : Base64Crate} {text : H.Authority → String}
  {credentials : Option (List (String × String))} {s : Handshake H}

/-- What the first request has made of the channel. -/
inductive Stage (B : Base64Crate) (text : H.Authority → String)
    (credentials : Option (List (String × String))) (s : Handshake H) : Prop where
  /-- There was none. -/
  | fresh (seen : s.seen = []) (sent : s.sent = none) (tx : s.connectTx = true)
      (conn : s.conn = .serving ∨ s.conn = .closed ∨ ∃ err, s.conn = .failed err)
  /-- It was turned down, and the sender is gone. -/
  | refused {req : Request H} {rest : List (Request H)} {msg : String}
      (seen : s.seen = req :: rest) (decision : (connect B text credentials req).1 = .error msg)
      (sent : s.sent = some (.error msg)) (tx : s.connectTx = false)
  /-- It was let in: there is no other, and the task sends its authority. -/
  | accepted {req : Request H} {authority : String} (seen : s.seen = [req])
      (decision : (connect B text credentials req).1 = .ok authority)
      (waiting : s.authority = some authority)
      (conn : (s.conn = .switching ∨ s.conn = .switched ∨ ∃ err, s.conn = .failed err) ∧
          s.sent = none ∧ s.connectTx = true ∨
        s.conn = .told ∧ s.sent = some (.ok authority))

theorem stage_serve (h : s.Stage B text credentials) (hconn : s.conn = .serving)
    (req : Request H) : (s.serve B text credentials req).Stage B text credentials := by
  cases h with
  | fresh seen sent tx conn =>
      have hseen : s.seen ++ [req] = [req] := by rw [seen, List.nil_append]
      cases hdecision : (connect B text credentials req).1 with
      | error msg =>
          unfold serve send
          simp only [hdecision, tx, if_true]
          exact .refused hseen hdecision rfl rfl
      | ok authority =>
          unfold serve
          simp only [hdecision]
          exact .accepted hseen hdecision rfl (.inl ⟨.inl rfl, sent, tx⟩)
  | @refused first rest msg seen decision sent tx =>
      have hseen : s.seen ++ [req] = first :: (rest ++ [req]) := by rw [seen, List.cons_append]
      cases hdecision : (connect B text credentials req).1 with
      | error msg' =>
          unfold serve send
          simp only [hdecision, tx, Bool.false_eq_true, if_false]
          exact .refused hseen decision sent rfl
      | ok authority =>
          unfold serve
          simp only [hdecision]
          exact .refused hseen decision sent tx
  | accepted seen decision waiting conn =>
      rcases conn with ⟨hc | hc | ⟨err, hc⟩, -⟩ | ⟨hc, -⟩ <;> rw [hconn] at hc <;> cases hc

/-- **Every event keeps what the first request has decided.** -/
theorem stage_step (s : Handshake H) (e : ConnEvent H) (h : s.Stage B text credentials) :
    (s.step B text credentials e).Stage B text credentials := by
  cases e with
  | request req =>
      simp only [step]
      split
      · rename_i hconn
        exact stage_serve h hconn req
      · exact h
  | close =>
      simp only [step]
      split
      · rename_i hconn
        cases h with
        | fresh seen sent tx conn => exact .fresh seen sent tx (.inr (.inl rfl))
        | refused seen decision sent tx => exact .refused seen decision sent tx
        | accepted seen decision waiting conn =>
            rcases conn with ⟨hc | hc | ⟨err, hc⟩, -⟩ | ⟨hc, -⟩ <;> rw [hconn] at hc <;> cases hc
      · exact h
  | error err =>
      simp only [step]
      split
      · rename_i hconn
        cases h with
        | fresh seen sent tx conn => exact .fresh seen sent tx (.inr (.inr ⟨err, rfl⟩))
        | refused seen decision sent tx => exact .refused seen decision sent tx
        | accepted seen decision waiting conn =>
            rcases conn with ⟨-, sent, tx⟩ | ⟨hc, -⟩
            · exact .accepted seen decision waiting (.inl ⟨.inr (.inr ⟨err, rfl⟩), sent, tx⟩)
            · rcases hconn with hconn | hconn <;> rw [hconn] at hc <;> cases hc
      · exact h
  | switch =>
      simp only [step]
      split
      · rename_i hconn
        cases h with
        | fresh seen sent tx conn =>
            rcases conn with hc | hc | ⟨err, hc⟩ <;> rw [hconn] at hc <;> cases hc
        | refused seen decision sent tx => exact .refused seen decision sent tx
        | accepted seen decision waiting conn =>
            rcases conn with ⟨-, sent, tx⟩ | ⟨hc, -⟩
            · exact .accepted seen decision waiting (.inl ⟨.inr (.inl rfl), sent, tx⟩)
            · rw [hconn] at hc
              cases hc
      · exact h
  | task =>
      simp only [step]
      split
      · rename_i authority hconn hauthority
        cases h with
        | fresh seen sent tx conn =>
            rcases conn with hc | hc | ⟨err, hc⟩ <;> rw [hconn] at hc <;> cases hc
        | refused seen decision sent tx =>
            have hsend : s.send (.ok authority) = s := by simp [send, tx]
            rw [hsend]
            exact .refused seen decision sent tx
        | @accepted req authority' seen decision waiting conn =>
            obtain rfl : authority' = authority :=
              Option.some.inj (waiting.symm.trans hauthority)
            rcases conn with ⟨-, sent, tx⟩ | ⟨hc, -⟩
            · unfold send
              rw [if_pos tx]
              exact .accepted seen decision waiting (.inr ⟨rfl, rfl⟩)
            · rw [hconn] at hc
              cases hc
      · exact h

theorem answers_serve (s : Handshake H) (req : Request H) :
    (s.serve B text credentials req).seen = s.seen ++ [req] ∧
      (s.serve B text credentials req).answers =
        s.answers ++ [(connect B text credentials req).2] := by
  unfold serve send
  dsimp only
  split
  · split <;> exact ⟨rfl, rfl⟩
  · exact ⟨rfl, rfl⟩

/-- **Every request that is seen is answered.** -/
theorem answers_step (s : Handshake H) (e : ConnEvent H)
    (h : s.answers = s.seen.map fun req => (connect B text credentials req).2) :
    (s.step B text credentials e).answers =
      (s.step B text credentials e).seen.map fun req => (connect B text credentials req).2 := by
  cases e with
  | request req =>
      simp only [step]
      split
      · obtain ⟨hseen, hanswers⟩ := s.answers_serve (B := B) req
        rw [hseen, hanswers, h, List.map_append]
        rfl
      · exact h
  | close =>
      simp only [step]
      split <;> exact h
  | error err =>
      simp only [step]
      split <;> exact h
  | switch =>
      simp only [step]
      split <;> exact h
  | task =>
      simp only [step]
      split
      · unfold send
        split <;> exact h
      · exact h

/-- **When a handshake succeeds.** -/
theorem Stage.outcome_ok_iff (h : s.Stage B text credentials) (authority : String) :
    s.outcome = some (.ok authority) ↔ s.conn = .told ∧ ∃ req, s.seen = [req] ∧
      (connect B text credentials req).1 = .ok authority := by
  unfold outcome
  cases h with
  | fresh seen sent tx conn =>
      refine iff_of_false (fun h => ?_) (fun h => ?_)
      · rcases conn with hc | hc | ⟨err, hc⟩ <;> rw [hc] at h
        · cases h
        · rw [sent] at h
          cases h
        · cases h
      · obtain ⟨-, req, hseen, -⟩ := h
        rw [seen] at hseen
        cases hseen
  | @refused req rest msg seen decision sent tx =>
      refine iff_of_false (fun h => ?_) (fun h => ?_)
      · rw [sent] at h
        split at h <;> cases h
      · obtain ⟨-, req', hseen, hdecision⟩ := h
        obtain ⟨rfl, -⟩ := List.cons.inj (seen.symm.trans hseen)
        rw [decision] at hdecision
        cases hdecision
  | @accepted req authority' seen decision waiting conn =>
      rcases conn with ⟨hc | hc | ⟨err, hc⟩, sent, -⟩ | ⟨hc, sent⟩ <;> rw [hc]
      · exact iff_of_false (fun h => by cases h) (fun h => by cases h.1)
      · rw [sent]
        exact iff_of_false (fun h => by cases h) (fun h => by cases h.1)
      · exact iff_of_false (fun h => by cases h) (fun h => by cases h.1)
      · rw [sent]
        constructor
        · intro h
          obtain rfl : authority' = authority := by simpa using h
          exact ⟨rfl, req, seen, decision⟩
        · rintro ⟨-, req', hseen, hdecision⟩
          obtain ⟨rfl, -⟩ := List.cons.inj (seen.symm.trans hseen)
          rw [decision] at hdecision
          rw [Except.ok.inj hdecision]

/-- **How a handshake ends whose first request was turned down.** -/
theorem Stage.outcome_of_refused (h : s.Stage B text credentials) {req : Request H}
    {rest : List (Request H)} {msg : String} (hseen : s.seen = req :: rest)
    (hdecision : (connect B text credentials req).1 = .error msg) {result : Except String String}
    (hresult : s.outcome = some result) :
    result = .error msg ∨ ∃ err, s.conn = .failed err ∧ result = .error err := by
  unfold outcome at hresult
  cases h with
  | fresh seen sent tx conn =>
      rw [seen] at hseen
      cases hseen
  | @refused req' rest' msg' seen decision sent tx =>
      obtain ⟨rfl, rfl⟩ := List.cons.inj (seen.symm.trans hseen)
      rw [decision] at hdecision
      obtain rfl := Except.error.inj hdecision
      rw [sent] at hresult
      split at hresult
      · cases hresult
      · cases hresult
      · exact .inl (Option.some.inj hresult).symm
      · exact .inl (Option.some.inj hresult).symm
      · exact .inl (Option.some.inj hresult).symm
      · rename_i err hconn
        exact .inr ⟨err, hconn, (Option.some.inj hresult).symm⟩
  | @accepted req' authority' seen decision waiting conn =>
      obtain ⟨rfl, -⟩ := List.cons.inj (seen.symm.trans hseen)
      rw [decision] at hdecision
      cases hdecision

end Handshake

section Run

variable {H : HttpCrate} (B : Base64Crate) (text : H.Authority → String)
  (credentials : Option (List (String × String)))

/-- The handshake after the events. -/
def handshaken (events : List (ConnEvent H)) : Handshake H :=
  run (Handshake.step B text credentials) .start events

theorem stage_handshaken (events : List (ConnEvent H)) :
    (handshaken B text credentials events).Stage B text credentials :=
  run_of_kept (fun e _ s => Handshake.stage_step s e) (.fresh rfl rfl rfl (.inl rfl))

/-- **The first request decides.**  Whatever a client sends and however its connection goes, every
request that is seen gets its answer; the handshake succeeds exactly when the connection has been
switched for a `CONNECT` that was let in and was its only request; and once the first request has
been turned down, the handshake can only end with the error of that, or of the connection. -/
theorem first_request_decides (events : List (ConnEvent H)) :
    let s := handshaken B text credentials events
    s.answers = s.seen.map (fun req => (connect B text credentials req).2) ∧
      (∀ authority, s.outcome = some (.ok authority) ↔ s.conn = .told ∧ ∃ req, s.seen = [req] ∧
        (connect B text credentials req).1 = .ok authority) ∧
      ∀ req rest msg, s.seen = req :: rest → (connect B text credentials req).1 = .error msg →
        ∀ result, s.outcome = some result →
          result = .error msg ∨ ∃ err, s.conn = .failed err ∧ result = .error err := by
  intro s
  have hstage : s.Stage B text credentials := stage_handshaken B text credentials events
  exact ⟨run_of_kept (fun e _ s => Handshake.answers_step s e) rfl, hstage.outcome_ok_iff,
    fun _ _ _ hseen hdecision _ hresult => hstage.outcome_of_refused hseen hdecision hresult⟩

end Run

/-- A client that is challenged and sends its credentials on the same connection is answered with
a 200, and the handshake fails. -/
example :
    let s := handshaken .standard id (some [("alice", "pw1")])
      [.request { connectAs ("alice", "pw1") with headers := [] },
        .request (connectAs ("alice", "pw1")), .switch, .task]
    s.answers.map Response.status = [407, 200] ∧
      s.outcome = some (.error "proxy authentication failed") := by
  decide +kernel

end Proxy
end Noxy
