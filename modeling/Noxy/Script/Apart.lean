/-
# When an isolate keeps its requests apart

`src/middleware/script.rs`: `handle_request` and the ops of the runtime.

An op that is still pending when its request ends acts on whichever request is served next, however
far it has come (`Crossing.crosses`, `crosses_of_pending`).  So an isolate that waits for the next
envelope keeps the requests apart from then on exactly if nothing is pending (`apart_iff`).

A script that calls `respond` without waiting for it is enough: the method and the URL of its
request are sent with the body of the next one, to where that goes.
-/

import Noxy.Script.Tidy

namespace Noxy
namespace Script

open Http Lib

namespace Isolate

variable {T : TextCrate} {s : Isolate} {r : ℕ}

/-- The requests that the isolate knows have been received. -/
structure Numbered (s : Isolate) : Prop where
  owner : ∀ p ∈ s.pending, p.owner < s.received
  serving : ∀ r, s.serving = some r → r < s.received
  returned : ∀ r, s.returned r = true → r < s.received

theorem Numbered.same {t : Isolate} (h : s.Numbered) (hreceived : t.received = s.received)
    (hserving : t.serving = s.serving) (hreturned : t.returned = s.returned)
    (hpending : t.pending = s.pending) : t.Numbered :=
  ⟨by rw [hpending, hreceived]; exact h.owner, by rw [hserving, hreceived]; exact h.serving,
    by rw [hreturned, hreceived]; exact h.returned⟩

theorem Numbered.callAll (h : s.Numbered) {owner : ℕ} (howner : owner < s.received)
    (calls : List ScriptCall) : (s.callAll owner calls).Numbered := by
  unfold Isolate.callAll
  induction calls generalizing s with
  | nil => exact h
  | cons call calls ih =>
      cases call with
      | finish result => exact ih ⟨h.owner, h.serving, h.returned⟩ howner
      | op op =>
          refine ih ⟨fun p hp => ?_, h.serving, h.returned⟩ howner
          rcases List.mem_append.mp hp with hp | hp
          · exact h.owner p hp
          · obtain rfl := List.mem_singleton.mp hp
            exact howner

theorem Numbered.complete (h : s.Numbered) {owner : ℕ} (howner : owner < s.received) (i : ℕ)
    (calls : List ScriptCall) : (s.complete i owner calls).Numbered := by
  have hrest : Numbered { s with pending := s.pending.eraseIdx i } :=
    ⟨fun p hp => h.owner p (List.mem_of_mem_eraseIdx hp), h.serving, h.returned⟩
  exact hrest.callAll howner calls

theorem Numbered.advance (h : s.Numbered) {owner : ℕ} (howner : owner < s.received) (i : ℕ)
    (stage : Stage) : (s.advance i owner stage).Numbered := by
  refine ⟨fun p hp => ?_, h.serving, h.returned⟩
  rcases List.mem_or_eq_of_mem_set hp with hp | rfl
  · exact h.owner p hp
  · exact howner

theorem Numbered.step (h : s.Numbered) (e : IsolateEvent) : (s.step T e).Numbered := by
  unfold Isolate.step
  cases e with
  | start body calls =>
      dsimp only [Isolate.react]
      split
      · exact h
      · refine Numbered.callAll ⟨fun p hp => ?_, fun r hr => ?_, fun r hr => ?_⟩ ?_ calls
        · exact Nat.lt_succ_of_lt (h.owner p hp)
        · obtain rfl := Option.some.inj hr
          exact Nat.lt_succ_self _
        · exact Nat.lt_succ_of_lt (h.returned r hr)
        · exact Nat.lt_succ_self _
  | poll i calls =>
      dsimp only [Isolate.react]
      split
      · rename_i r st p hserving hst hp
        have howner := h.owner p (List.mem_of_getElem? hp)
        unfold pollOp
        split
        · rename_i op _
          cases op with
          | reqBody => exact (h.advance howner i _).same rfl rfl rfl rfl
          | respond request body => exact h.advance howner _ _
          | resBody =>
              dsimp only [pollCalled]
              split
              · exact h.advance howner _ _
              · exact (h.advance howner i _).same rfl rfl rfl rfl
        · exact h.complete howner i calls
        · dsimp only
          split
          · exact h.complete howner i calls
          · exact h
        · exact h.complete howner i calls
        · rename_i handle _
          have hset : Numbered { s with state := some { st with responseBody := some handle } } :=
            h.same rfl rfl rfl rfl
          exact hset.complete howner i calls
      · exact h
  | command i result =>
      dsimp only [Isolate.react]
      split
      · rename_i owner target request body hp
        have howner : owner < s.received := h.owner _ (List.mem_of_getElem? hp)
        split
        · exact h
        · unfold serveCommand
          cases body with
          | some bytes =>
              dsimp only
              split
              · exact h.advance howner _ _
              · exact h.advance howner _ _
              · exact (h.advance howner i _).same rfl rfl rfl rfl
          | none =>
              dsimp only
              split
              · exact (h.advance howner i _).same rfl rfl rfl rfl
              · exact (h.advance howner i _).same rfl rfl rfl rfl
              · exact (h.advance howner i _).same rfl rfl rfl rfl
      · exact h
  | fulfil =>
      dsimp only [Isolate.react]
      split
      · split
        · exact ⟨h.owner, fun r hr => (nomatch hr), h.returned⟩
        · exact h
      · exact h
  | fail => exact ⟨h.owner, fun r hr => (nomatch hr), h.returned⟩
  | callReturns request =>
      dsimp only [Isolate.react]
      split
      · rename_i hrequest
        refine ⟨h.owner, h.serving, fun r hr => ?_⟩
        by_cases hr' : r = request
        · exact hr' ▸ hrequest.1
        · exact h.returned r (by simpa [Function.update_of_ne hr'] using hr)
      · exact h

/-- While a request is served, an op that is called by code of another one acts on it. -/
theorem effects_of_called {st : RequestState} (hserving : s.serving = some r)
    (hst : s.state = some st) {i owner : ℕ} (hp : s.pending[i]? = some ⟨owner, .called .reqBody⟩) :
    s.effects T [.poll i []] = [.readBody owner st.request] := by
  simp [effects, react, hserving, hst, hp, pollOp, pollCalled]

/-- Events that end no request are tidy. -/
theorem along_tidy {events : List IsolateEvent} (h : ∀ e ∈ events, e ≠ .fulfil ∧ e ≠ .fail)
    (s : Isolate) : Along (step T) Tidy s events :=
  along_of_forall (fun _ e he hend => (hend.elim (h e he).1 (h e he).2).elim) s

/-- The isolate serves `r`, and an op of another request is pending. -/
structure Crossing (r owner : ℕ) (stage : Stage) (s : Isolate) : Prop where
  serving : s.serving = some r
  state : s.state = some ⟨r, none, none, false⟩
  pending : ∃ rest, s.pending = ⟨owner, stage⟩ :: rest
  ne : owner ≠ r
  returned : s.returned r = false

/-- An effect that is not the request's own comes after some events that end no request. -/
def Crosses (T : TextCrate) (s : Isolate) : Prop :=
  ∃ events : List IsolateEvent, (∀ e ∈ events, e ≠ .fulfil ∧ e ≠ .fail) ∧
    ∃ e ∈ s.effects T events, ¬ e.Own

theorem Crosses.next {e : IsolateEvent} (hne : e ≠ .fulfil ∧ e ≠ .fail)
    (h : Crosses T (s.step T e)) : Crosses T s := by
  obtain ⟨events, hevents, eff, heff, hown⟩ := h
  exact ⟨e :: events, List.forall_mem_cons.mpr ⟨hne, hevents⟩, eff,
    List.mem_append_right _ heff, hown⟩

variable {owner : ℕ} {stage : Stage}

/-- The op goes on, and the rest is as before. -/
theorem Crossing.advance (h : s.Crossing r owner stage) (stage' : Stage) :
    (s.advance 0 owner stage').Crossing r owner stage' := by
  obtain ⟨rest, hrest⟩ := h.pending
  exact ⟨h.serving, h.state, ⟨rest, by rw [Isolate.advance, hrest]; rfl⟩, h.ne, h.returned⟩

theorem Crossing.poll (h : s.Crossing r owner stage) (calls : List ScriptCall) :
    s.react T (.poll 0 calls) = s.pollOp 0 ⟨owner, stage⟩ ⟨r, none, none, false⟩ calls := by
  obtain ⟨rest, hrest⟩ := h.pending
  simp [Isolate.react, h.serving, h.state, hrest]

/-- An op is done when it is polled: the code that waits for it may read the body of a request. -/
theorem Crossing.crosses_of_done (h : s.Crossing r owner stage) (state : RequestState)
    (hstate : state.request = r)
    (hdone : s.pollOp 0 ⟨owner, stage⟩ ⟨r, none, none, false⟩ [.op .reqBody] =
      ({ s with state := some state }.complete 0 owner [.op .reqBody], [])) : Crosses T s := by
  obtain ⟨rest, hrest⟩ := h.pending
  have hstep : s.step T (.poll 0 [.op .reqBody]) =
      { s with state := some state, pending := rest ++ [⟨owner, .called .reqBody⟩] } := by
    rw [step, h.poll, hdone]
    simp [complete, callAll, callOne, hrest]
  refine Crosses.next (e := .poll 0 [.op .reqBody]) (by simp) ?_
  refine ⟨[.poll rest.length []], by simp, .readBody owner r, ?_, h.ne⟩
  have hcalled : (s.step T (.poll 0 [.op .reqBody])).pending[rest.length]? =
      some ⟨owner, .called .reqBody⟩ := by
    rw [hstep]
    exact List.getElem?_concat_length
  rw [effects_of_called (by rw [hstep]; exact h.serving) (by rw [hstep]) hcalled, hstate]
  exact List.mem_singleton.mpr rfl

/-- A command whose request the inner service does not answer. -/
theorem serveCommand_error (s : Isolate) (i owner target : ℕ) (request : RequestMeta)
    (body : Option (List UInt8)) (e : String) :
    ∃ bodies e', s.serveCommand T i owner target request body (.error e) =
      { s with bodies := bodies }.advance i owner (.replied (.error e')) := by
  unfold serveCommand
  cases body with
  | some bytes =>
      dsimp only
      split
      · exact ⟨s.bodies, _, rfl⟩
      · exact ⟨s.bodies, _, rfl⟩
      · contradiction
  | none =>
      dsimp only
      split
      · exact ⟨_, _, rfl⟩
      · exact ⟨_, _, rfl⟩
      · contradiction

theorem Crossing.crosses_of_error {e : String} (h : s.Crossing r owner (.replied (.error e))) :
    Crosses T s :=
  h.crosses_of_done ⟨r, none, none, false⟩ rfl (by rw [← h.state]; rfl)

/-- **An op of another request**, however far it has come, can still act on the request that is
served. -/
theorem Crossing.crosses (h : s.Crossing r owner stage) : Crosses T s := by
  obtain ⟨rest, hrest⟩ := h.pending
  cases stage with
  | called op =>
      cases op with
      | reqBody =>
          refine ⟨[.poll 0 []], by simp, .readBody owner r, ?_, h.ne⟩
          have hcalled : s.pending[0]? = some ⟨owner, .called .reqBody⟩ := by
            rw [hrest]
            rfl
          rw [effects_of_called h.serving h.state hcalled]
          exact List.mem_singleton.mpr rfl
      | respond request body =>
          refine Crosses.next (e := .poll 0 []) (by simp) ?_
          have hstep : s.step T (.poll 0 []) = s.advance 0 owner (.sent r request body) := by
            rw [step, h.poll]
            rfl
          rw [hstep]
          refine ⟨[.command 0 (.error "")], by simp, .serve owner r, ?_, h.ne⟩
          simp [effects, Isolate.react, Isolate.advance, hrest, h.returned]
      | resBody =>
          refine Crosses.next (e := .poll 0 []) (by simp) ?_
          have hstep : s.step T (.poll 0 []) = s.advance 0 owner (.reading none) := by
            rw [step, h.poll]
            rfl
          rw [hstep]
          exact (h.advance _).crosses_of_done ⟨r, none, none, false⟩ rfl
            (by rw [← h.state]; rfl)
  | reading body =>
      exact h.crosses_of_done ⟨r, none, none, false⟩ rfl (by rw [← h.state]; rfl)
  | sent target request body =>
      by_cases htarget : s.returned target = true
      · refine h.crosses_of_done ⟨r, none, none, false⟩ rfl ?_
        simp [pollOp, htarget, ← h.state]
      · obtain ⟨bodies, e, hserve⟩ := serveCommand_error (T := T) s 0 owner target request body ""
        refine Crosses.next (e := .command 0 (.error "")) (by simp) ?_
        have hstep : s.step T (.command 0 (.error "")) =
            { s with bodies := bodies }.advance 0 owner (.replied (.error e)) := by
          rw [step, ← hserve]
          simp [Isolate.react, hrest, htarget]
        rw [hstep]
        have hbodies : Crossing r owner (.sent target request body) { s with bodies := bodies } :=
          ⟨h.serving, h.state, h.pending, h.ne, h.returned⟩
        exact (hbodies.advance _).crosses_of_error
  | replied reply =>
      cases reply with
      | error e => exact h.crosses_of_error
      | ok handle =>
          exact h.crosses_of_done ⟨r, some handle, none, false⟩ rfl rfl

/-- **What is pending** while the isolate waits acts on the next request. -/
theorem crosses_of_pending (h : s.Numbered) (hidle : s.serving = none) (hpending : s.pending ≠ []) :
    Crosses T s := by
  obtain ⟨⟨owner, stage⟩, rest, hrest⟩ := List.exists_cons_of_ne_nil hpending
  refine Crosses.next (e := .start emptyBody []) (by simp) ?_
  have howner : owner < s.received := h.owner _ (by rw [hrest]; exact List.mem_cons_self)
  have hcross : (s.step T (.start emptyBody [])).Crossing s.received owner stage := by
    have hstep : s.step T (.start emptyBody []) =
        { s with
          received := s.received + 1
          serving := some s.received
          state := some ⟨s.received, none, none, false⟩
          bodies := Function.update s.bodies s.received (some emptyBody) } := by
      simp [step, Isolate.react, hidle, callAll]
    rw [hstep]
    refine ⟨rfl, rfl, ⟨rest, hrest⟩, Nat.ne_of_lt howner, ?_⟩
    by_contra hreturned
    exact Nat.lt_irrefl _ (h.returned _ (by simpa using hreturned))
  exact hcross.crosses

theorem new_numbered : new.Numbered :=
  ⟨fun _ hp => (nomatch hp), fun _ hr => (nomatch hr), fun _ hr => (nomatch hr)⟩

/-- **When an isolate keeps its requests apart.**  At any time that the isolate waits for the next
envelope: nothing is pending if and only if, from then on, code acts on its own request only, in
every run whose requests wait for what they call. -/
theorem apart_iff (T : TextCrate) (events : List IsolateEvent)
    (hidle : (run (step T) new events).serving = none) :
    (run (step T) new events).pending = [] ↔
      ∀ more, Along (step T) Tidy (run (step T) new events) more →
        ∀ e ∈ (run (step T) new events).effects T more, e.Own := by
  constructor
  · intro hpending more htidy
    have hkept : (run (step T) new events).Kept := by
      unfold Kept
      rwa [hidle]
    exact hkept.effects htidy
  · intro hown
    by_contra hpending
    have hnumbered : (run (step T) new events).Numbered :=
      run_of_kept (J := Numbered) (fun e _ _ h => h.step e) new_numbered
    obtain ⟨more, htidy, e, he, hcross⟩ := crosses_of_pending (T := T) hnumbered hidle hpending
    exact hcross (hown more (along_tidy htidy _) e he)

/-- A handler that calls `respond` and returns a response of its own without waiting for it. -/
def unawaited : List IsolateEvent :=
  [.start emptyBody [.op (.respond ⟨"GET", "/first", []⟩ none), .finish ⟨202, [], none, false⟩],
    .fulfil]

/-- The isolate of such a handler waits with an op pending, and does not keep the requests apart. -/
theorem apart_iff_unawaited :
    (run (step .ascii) new unawaited).serving = none ∧
      ¬ ∀ more, Along (step .ascii) Tidy (run (step .ascii) new unawaited) more →
        ∀ e ∈ (run (step .ascii) new unawaited).effects .ascii more, e.Own :=
  ⟨rfl, fun h => List.cons_ne_nil _ _ ((apart_iff .ascii unawaited rfl).mpr h)⟩

-- The command of the first request is served by the `call` of the second.
example : new.effects .ascii
    (unawaited ++ [.start emptyBody [], .poll 0 [], .command 0 (.error "")]) =
      [.answer 0 0 none, .serve 0 1] := rfl

end Isolate
end Script
end Noxy
