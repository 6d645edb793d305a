/-
# Retries over backends that take turns

`src/middleware/retry.rs`: `RetryService::call`; `src/middleware/router.rs`: `Upstream::pick` and
`RouterService::call`, one inside the other, for any number of requests at once.

The router is called for every attempt, and all attempts of all requests take their turns from one
counter.  So a retry goes to the backend after the last one that anybody took, which need not be
another backend than the first attempt had: with two backends of which one is down, and another
request between any two attempts, a request can meet the one that is down every time.  But then the
others have met the one that is up.

`refused_le` is the balance: a request that ends with a status to retry has used up all its
attempts at backends that are down, one whose connection fails has used one since errors are not
retried, and every turn of a backend that is up ends a request well.
-/

import Noxy.Lib.Run
import Noxy.Lib.Turns
import Noxy.Proxy.RoundRobin
import Noxy.Retry.Service

namespace Noxy
namespace Retry

open Http Lib Proxy

variable {H : HttpCrate}

/-! ### Many requests and one upstream -/

/-- What an attempt meets: the answer of its backend, how far the first body has been read by
then, and the draw for the backoff. -/
structure Meeting where
  answer : Except String Response
  polls : ℕ
  jitter : (upper : ℕ) → Fin (upper + 1)

/-- The surroundings of a call whose attempts meet these, without a budget. -/
def surroundings (met : List Meeting) : Surroundings H where
  reply j _ :=
    match met[j]?.map Meeting.answer with
    | some (.ok resp) => .response resp
    | some (.error e) => .failed e
    | none => .notReady "buffer's worker closed unexpectedly"
  polls j := (met[j]?.map Meeting.polls).getD 0
  jitter j := (met[j]?.map Meeting.jitter).getD fun upper => ⟨0, Nat.succ_pos upper⟩
  others _ b := b
  reads _ := ⟨0, 0⟩

/-- A request in the loop of `RetryService::call`: what its attempts have met so far, the bytes to
replay, and how it has ended. -/
structure Client (H : HttpCrate) where
  req : Request H
  met : List Meeting
  replay : Option (List UInt8)
  outcome : Option Outcome

namespace Client

/-- A request before its first attempt. -/
def new (req : Request H) : Client H :=
  ⟨req, [], if RetryService.bodyKnownEmpty req then some [] else none, none⟩

/-- The request after one more turn of the loop. -/
def next (svc : RetryService) (c : Client H) (m : Meeting) : Client H :=
  let met := c.met ++ [m]
  match svc.turn (surroundings met) c.req c.met.length c.replay none with
  | .notReady e => { c with met := met, outcome := some (.error e) }
  | .stop _ outcome => { c with met := met, outcome := some outcome }
  | .again bytes _ _ => { c with met := met, replay := some bytes }

variable (svc : RetryService) (c : Client H)

/-- One if the request has ended with a status that is not retried. -/
def served : ℕ :=
  match c.outcome with
  | some (.response r) => if r.status ∈ svc.statuses then 0 else 1
  | _ => 0

/-- One if the request has ended with a status that is retried. -/
def refused : ℕ :=
  match c.outcome with
  | some (.response r) => if r.status ∈ svc.statuses then 1 else 0
  | _ => 0

/-- One if the request has ended with an error. -/
def errored : ℕ :=
  match c.outcome with
  | some (.error _) => 1
  | _ => 0

end Client

/-- The router's counter, and the requests that have come. -/
structure Balanced (H : HttpCrate) where
  world : World H
  clients : List (Client H)

/-- A request comes, or makes an attempt. -/
inductive BalancedEvent (H : HttpCrate) where
  | arrive (req : Request H)
  | attempt (i : ℕ) (m : Meeting)

namespace Balanced

/-- The sum of a number over the requests. -/
def total (s : Balanced H) (f : Client H → ℕ) : ℕ := (s.clients.map f).sum

section Steps

variable (svc : RetryService) (u : RoundRobin H) (out : Outside H)

/-- The state after an event: an attempt takes the next turn. -/
def step (s : Balanced H) : BalancedEvent H → Balanced H
  | .arrive req => { s with clients := s.clients ++ [.new req] }
  | .attempt i m =>
      match s.clients[i]? with
      | none => s
      | some c =>
          if c.outcome.isSome then s
          else ⟨(u.toUpstream.toTarget out s.world).2, s.clients.set i (c.next svc m)⟩

/-- Requests may be retried, and their bodies replayed; backends that are up answer with a status
that is not retried, and the others with one that is, or not at all. -/
def Answers (up : Fin u.size → Bool) (s : Balanced H) : BalancedEvent H → Prop
  | .arrive req => svc.methodRetryable req.method = true
  | .attempt i m => ∀ c, s.clients[i]? = some c → c.outcome = none →
      (c.replay.orElse fun _ => (svc.captureAfter c.req m.polls).snapshot).isSome = true ∧
        match m.answer with
        | .ok resp => up (u.turn s.world) = true ↔ resp.status ∉ svc.statuses
        | .error _ => up (u.turn s.world) = false

end Steps
end Balanced

/-! ### Each request is a call of the service -/

section Call

variable {svc : RetryService}

/-- A turn of the loop reads what its own attempt meets, and no more. -/
theorem turn_surroundings (met : List Meeting) (m : Meeting) (later : List Meeting)
    (req : Request H) (replay : Option (List UInt8)) :
    svc.turn (surroundings (met ++ m :: later)) req met.length replay none =
      svc.turn (surroundings (met ++ [m])) req met.length replay none := by
  have hget : ∀ rest : List Meeting, (met ++ m :: rest)[met.length]? = some m := fun rest => by
    simp
  rw [RetryService.turn_eq_follow, RetryService.turn_eq_follow]
  unfold RetryService.follow
  simp only [surroundings, hget]
  rfl

/-- Without a budget there is none after a turn. -/
theorem budget_of_again {around : Surroundings H} {req : Request H} {attempt delay : ℕ}
    {replay : Option (List UInt8)} {bytes : List UInt8} {budget : Option BudgetState}
    (h : svc.turn around req attempt replay none = .again bytes delay budget) : budget = none := by
  rw [RetryService.turn_eq_follow] at h
  split at h
  · cases h
  · cases h
  · unfold RetryService.follow at h
    split at h
    · cases h
    · cases h
    · split at h
      · cases h
      · simp only [RetryService.permit, Turn.again.injEq] at h
        exact h.2.2.symm

/-- Where the loop is, for a request that has met what it has: whatever it meets later, the call
ends as the rest of the loop does, or as it has ended. -/
def Client.Follows (svc : RetryService) (c : Client H) : Prop :=
  match c.outcome with
  | none => c.met.length ≤ svc.effectiveRetries c.req ∧ ∀ later,
      (svc.call (surroundings (c.met ++ later)) c.req none).outcome =
        (svc.attempts (surroundings (c.met ++ later)) c.req
          (svc.effectiveRetries c.req + 1 - c.met.length) c.met.length c.replay none).outcome
  | some outcome => ∀ later, (svc.call (surroundings (c.met ++ later)) c.req none).outcome = outcome

theorem Client.follows_new (req : Request H) : (Client.new req).Follows svc :=
  ⟨Nat.zero_le _, fun _ => rfl⟩

theorem Client.Follows.next {c : Client H} (h : c.Follows svc) (hrunning : c.outcome = none)
    (m : Meeting) : (c.next svc m).Follows svc := by
  unfold Client.Follows at h
  rw [hrunning] at h
  obtain ⟨hle, hcall⟩ := h
  have hleft : svc.effectiveRetries c.req + 1 - c.met.length =
      svc.effectiveRetries c.req - c.met.length + 1 := by omega
  have hone : ∀ later : List Meeting, c.met ++ [m] ++ later = c.met ++ m :: later := fun later => by
    simp
  unfold Client.next Client.Follows
  dsimp only
  cases hturn : svc.turn (surroundings (c.met ++ [m])) c.req c.met.length c.replay none with
  | notReady e =>
      intro later
      rw [hone, hcall, hleft, RetryService.attempts, turn_surroundings, hturn]
  | stop budget outcome =>
      intro later
      rw [hone, hcall, hleft, RetryService.attempts, turn_surroundings, hturn]
  | again bytes delay budget =>
      obtain rfl := budget_of_again hturn
      have hlt := (RetryService.turn_ok hle hturn).1
      dsimp only
      rw [hrunning, List.length_append, List.length_singleton]
      refine ⟨hlt, fun later => ?_⟩
      have hrest : svc.effectiveRetries c.req + 1 - (c.met.length + 1) =
          svc.effectiveRetries c.req - c.met.length := by omega
      rw [hone, hcall, hleft, RetryService.attempts, turn_surroundings, hturn, hrest]

end Call

/-- **Each request is a call** of the service, with the answers that its attempts have met. -/
theorem outcome_eq_call (svc : RetryService) (u : RoundRobin H) (out : Outside H) (world : World H)
    (events : List (BalancedEvent H)) :
    ∀ c ∈ (run (Balanced.step svc u out) ⟨world, []⟩ events).clients, ∀ outcome,
      c.outcome = some outcome → (svc.call (surroundings c.met) c.req none).outcome = outcome := by
  have hfollows : ∀ c ∈ (run (Balanced.step svc u out) ⟨world, []⟩ events).clients,
      c.Follows svc := by
    refine run_of_kept (J := fun s : Balanced H => ∀ c ∈ s.clients, c.Follows svc)
      (fun e _ s hs => ?_) fun c hc => (nomatch hc)
    cases e with
    | arrive req =>
        intro c hc
        rcases List.mem_append.mp hc with hc | hc
        · exact hs c hc
        · obtain rfl := List.mem_singleton.mp hc
          exact Client.follows_new req
    | attempt i m =>
        dsimp only [Balanced.step]
        split
        · exact hs
        · rename_i c hi
          split
          · exact hs
          · rename_i hrunning
            intro c' hc'
            rcases List.mem_or_eq_of_mem_set hc' with hc' | rfl
            · exact hs c' hc'
            · exact (hs c (List.mem_of_getElem? hi)).next (by simpa using hrunning) m
  intro c hc outcome houtcome
  have h := hfollows c hc
  unfold Client.Follows at h
  rw [houtcome] at h
  simpa using h []

/-! ### What an attempt comes to -/

section Balance

variable {svc : RetryService}

/-- How a request ends with an answer to its attempt, if it does. -/
def ending (svc : RetryService) (attempt : ℕ) : Except String Response → Option Outcome
  | .error e => some (.error e)
  | .ok resp =>
      if attempt = svc.maxRetries ∨ resp.status ∉ svc.statuses then some (.response resp) else none

theorem Client.met_next (svc : RetryService) (c : Client H) (m : Meeting) :
    (c.next svc m).met = c.met ++ [m] ∧ (c.next svc m).req = c.req := by
  unfold Client.next
  dsimp only
  split <;> exact ⟨rfl, rfl⟩

/-- **One attempt**, of a request that may be retried, by the statuses alone. -/
theorem Client.outcome_next (hpolicy : svc.policy = none) {c : Client H} {m : Meeting}
    (hmethod : svc.methodRetryable c.req.method = true) (hrunning : c.outcome = none)
    (hreplay : (c.replay.orElse fun _ => (svc.captureAfter c.req m.polls).snapshot).isSome = true) :
    (c.next svc m).outcome = ending svc c.met.length m.answer := by
  have hget : (c.met ++ [m])[c.met.length]? = some m := by simp
  have heff : svc.effectiveRetries c.req = svc.maxRetries := if_pos hmethod
  obtain ⟨bytes, hbytes⟩ := Option.isSome_iff_exists.mp hreplay
  unfold Client.next ending
  dsimp only
  rw [RetryService.turn_eq_follow]
  unfold RetryService.follow
  simp only [surroundings, hget, Option.map_some, Option.getD_some]
  cases m.answer with
  | error e => rfl
  | ok resp =>
      simp only [RetryService.verdict, hpolicy, heff]
      by_cases hend : c.met.length = svc.maxRetries ∨ resp.status ∉ svc.statuses
      · simp only [if_pos hend]
      · simp only [if_neg hend, hbytes, RetryService.permit, hrunning]

/-- What is kept of a request: while it runs it has an attempt left, and one that has ended has
made the attempts that it takes to end so. -/
structure Client.Paid (svc : RetryService) (c : Client H) : Prop where
  method : svc.methodRetryable c.req.method = true
  running : c.outcome = none → c.met.length ≤ svc.maxRetries
  paid : (svc.maxRetries + 1) * c.refused svc + c.errored + c.served svc ≤ c.met.length

theorem Client.paid_new {req : Request H} (h : svc.methodRetryable req.method = true) :
    (Client.new req).Paid svc :=
  ⟨h, fun _ => Nat.zero_le _, Nat.zero_le _⟩

/-- **An attempt is paid for**, and it serves the request exactly if its backend is up. -/
theorem Client.Paid.next (hpolicy : svc.policy = none) {c : Client H} (h : c.Paid svc)
    (hrunning : c.outcome = none) {m : Meeting} {up : Bool}
    (hreplay : (c.replay.orElse fun _ => (svc.captureAfter c.req m.polls).snapshot).isSome = true)
    (hanswer : match m.answer with
      | .ok resp => up = true ↔ resp.status ∉ svc.statuses
      | .error _ => up = false) :
    (c.next svc m).Paid svc ∧ (c.next svc m).served svc = if up = true then 1 else 0 := by
  have houtcome := c.outcome_next hpolicy h.method hrunning hreplay
  have hlen := h.running hrunning
  obtain ⟨hmet, hreq⟩ := c.met_next svc m
  have hmethod : svc.methodRetryable (c.next svc m).req.method = true := hreq ▸ h.method
  have hlength : (c.next svc m).met.length = c.met.length + 1 := by
    rw [hmet, List.length_append, List.length_singleton]
  cases hm : m.answer with
  | error e =>
      rw [hm] at houtcome hanswer
      have hup : up = false := hanswer
      constructor
      · refine ⟨hmethod, fun hnone => ?_, ?_⟩
        · rw [houtcome] at hnone
          cases hnone
        · simp [refused, errored, served, houtcome, ending, hlength]
      · simp [served, houtcome, ending, hup]
  | ok resp =>
      rw [hm] at houtcome hanswer
      have hup : up = true ↔ resp.status ∉ svc.statuses := hanswer
      by_cases hstatus : resp.status ∈ svc.statuses
      · by_cases hlast : c.met.length = svc.maxRetries
        · have hend : (c.next svc m).outcome = some (.response resp) := by
            rw [houtcome]
            exact if_pos (Or.inl hlast)
          constructor
          · refine ⟨hmethod, fun hnone => ?_, ?_⟩
            · rw [hend] at hnone
              cases hnone
            · simp [refused, errored, served, hend, hstatus, hlength, hlast]
          · simp [served, hend, hstatus, hup]
        · have hend : (c.next svc m).outcome = none := by
            rw [houtcome]
            exact if_neg (not_or.mpr ⟨hlast, not_not_intro hstatus⟩)
          constructor
          · refine ⟨hmethod, fun _ => by omega, ?_⟩
            simp [refused, errored, served, hend]
          · simp [served, hend, hstatus, hup]
      · have hend : (c.next svc m).outcome = some (.response resp) := by
          rw [houtcome]
          exact if_pos (Or.inr hstatus)
        constructor
        · refine ⟨hmethod, fun hnone => ?_, ?_⟩
          · rw [hend] at hnone
            cases hnone
          · simp [refused, errored, served, hend, hstatus, hlength]
        · simp [served, hend, hstatus, hup]

end Balance

/-! ### The balance of turns -/

section Turns

variable {svc : RetryService} {u : RoundRobin H} {out : Outside H}

/-- The backend whose turn has the number is up. -/
def UpAt (u : RoundRobin H) (up : Fin u.size → Bool) (k : ℕ) : Prop :=
  up ⟨k % u.size, Nat.mod_lt _ u.nonempty⟩ = true

instance (u : RoundRobin H) (up : Fin u.size → Bool) : DecidablePred (UpAt u up) := fun k =>
  inferInstanceAs (Decidable (up ⟨k % u.size, Nat.mod_lt _ u.nonempty⟩ = true))

/-- How many backends are up. -/
def ups (u : RoundRobin H) (up : Fin u.size → Bool) : ℕ := u.size.count (UpAt u up)

/-- How many are not. -/
def downs (u : RoundRobin H) (up : Fin u.size → Bool) : ℕ := u.size.count fun k => ¬ UpAt u up k

/-- What is kept of all: the counter has gone on by the attempts, and those at backends that are up
are the requests that were served. -/
structure Balanced.Kept (svc : RetryService) (u : RoundRobin H) (up : Fin u.size → Bool) (c : ℕ)
    (s : Balanced H) : Prop where
  clients : ∀ client ∈ s.clients, client.Paid svc
  counter : s.world.counters u.counter = c + s.total fun client => client.met.length
  served : turnsWith (UpAt u up) c (s.total fun client => client.met.length) =
    s.total (Client.served svc)

/-- **One event** keeps the balance, as long as the counter does not start over. -/
theorem Balanced.Kept.step (out : Outside H) (hpolicy : svc.policy = none)
    {up : Fin u.size → Bool} {c : ℕ} {s : Balanced H} (h : s.Kept svc u up c)
    {e : BalancedEvent H} (he : s.Answers svc u up e)
    (hwrap : s.world.counters u.counter + 1 < USIZE_SIZE) :
    (s.step svc u out e).Kept svc u up c ∧
      (s.step svc u out e).world.counters u.counter ≤ s.world.counters u.counter + 1 := by
  cases e with
  | arrive req =>
      refine ⟨⟨fun client hclient => ?_, ?_, ?_⟩, Nat.le_succ _⟩
      · rcases List.mem_append.mp hclient with hclient | hclient
        · exact h.clients client hclient
        · obtain rfl := List.mem_singleton.mp hclient
          exact Client.paid_new he
      · simpa [Balanced.step, total, Client.new] using h.counter
      · simpa [Balanced.step, total, Client.new, Client.served] using h.served
  | attempt i m =>
      dsimp only [Balanced.step]
      split
      · exact ⟨h, Nat.le_succ _⟩
      · rename_i client hi
        split
        · exact ⟨h, Nat.le_succ _⟩
        · rename_i hsome
          have hrunning : client.outcome = none := by simpa using hsome
          obtain ⟨hreplay, hanswer⟩ := he client hi hrunning
          obtain ⟨hpaid, hserved⟩ := (h.clients client (List.mem_of_getElem? hi)).next hpolicy
            hrunning hreplay hanswer
          have hcounter : (u.toUpstream.toTarget out s.world).2.counters u.counter =
              s.world.counters u.counter + 1 := by
            rw [u.counter_toTarget, Nat.mod_eq_of_lt hwrap]
          have hmet := sum_map_set (fun client : Client H => client.met.length) hi
            (client.next svc m)
          have hsum := sum_map_set (Client.served svc) hi (client.next svc m)
          have hlength : (client.next svc m).met.length = client.met.length + 1 := by
            rw [(client.met_next svc m).1, List.length_append, List.length_singleton]
          have hbefore : client.served svc = 0 := by
            rw [Client.served, hrunning]
          have hmore : total ⟨(u.toUpstream.toTarget out s.world).2,
              s.clients.set i (client.next svc m)⟩ (fun client => client.met.length) =
              s.total (fun client => client.met.length) + 1 := by
            dsimp only [total]
            omega
          refine ⟨⟨fun client' hclient' => ?_, ?_, ?_⟩, hcounter.le⟩
          · rcases List.mem_or_eq_of_mem_set hclient' with hclient' | rfl
            · exact h.clients client' hclient'
            · exact hpaid
          · rw [hmore, hcounter, h.counter, Nat.add_assoc]
          · rw [hmore, turnsWith_succ, h.served]
            have hup : UpAt u up (c + s.total fun client => client.met.length) ↔
                up (u.turn s.world) = true := by
              rw [← h.counter]
              exact Iff.rfl
            simp only [hup]
            rw [hserved, hbefore] at hsum
            dsimp only [total]
            omega

theorem Balanced.Kept.run (hpolicy : svc.policy = none) {up : Fin u.size → Bool} {c : ℕ}
    {events : List (BalancedEvent H)} {s : Balanced H} (h : s.Kept svc u up c)
    (hanswers : Along (Balanced.step svc u out) (Balanced.Answers svc u up) s events)
    (hwrap : s.world.counters u.counter + events.length < USIZE_SIZE) :
    (Lib.run (Balanced.step svc u out) s events).Kept svc u up c := by
  induction events generalizing s with
  | nil => exact h
  | cons e events ih =>
      rw [List.length_cons] at hwrap
      obtain ⟨hkept, hle⟩ := h.step out hpolicy hanswers.1 (by omega)
      exact ih hkept hanswers.2 (by omega)

theorem sum_paid {clients : List (Client H)} (h : ∀ c ∈ clients, c.Paid svc) :
    (svc.maxRetries + 1) * (clients.map (Client.refused svc)).sum +
      (clients.map Client.errored).sum + (clients.map (Client.served svc)).sum ≤
        (clients.map fun c => c.met.length).sum := by
  induction clients with
  | nil => exact Nat.zero_le _
  | cons c clients ih =>
      obtain ⟨hc, hclients⟩ := List.forall_mem_cons.mp h
      have hpaid := hc.paid
      have hrest := ih hclients
      simp only [List.map_cons, List.sum_cons, Nat.mul_add]
      omega

end Turns

/-- One retry, of a 503. -/
def retryOnce : RetryService := ⟨[503], 1, 0, 0, none, 0, some ["GET"]⟩

/-- A backend's answer with a status. -/
def answers (status : ℕ) : Meeting :=
  ⟨.ok ⟨status, [], emptyBody⟩, 0, fun upper => ⟨0, Nat.succ_pos upper⟩⟩

/-- A request without a body. -/
def getRoot : Request .plain := plainRequest "GET" (.ofPath none "/")

/-- Two requests, the second with its attempt between those of the first. -/
def inBetween : List (BalancedEvent .plain) :=
  [.arrive getRoot, .arrive getRoot, .attempt 0 (answers 503), .attempt 1 (answers 200),
    .attempt 0 (answers 503)]

/-- The second of two backends is up. -/
def secondUp : Fin twoBackends.size → Bool := fun i => i.val == 1

theorem answers_inBetween : Along (Balanced.step retryOnce twoBackends plainOutside)
    (Balanced.Answers retryOnce twoBackends secondUp) ⟨plainWorld, []⟩ inBetween := by
  refine ⟨rfl, rfl, ?_, ?_, ?_, trivial⟩
  all_goals
    intro c hc _
    obtain rfl := Option.some.inj hc
    refine ⟨rfl, ?_⟩
    dsimp only [answers]
    decide

end Retry
end Noxy
