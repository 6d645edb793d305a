/-
# An isolate whose requests wait for what they call

`src/middleware/script.rs`: `handle_request` and the ops of the runtime.

As long as every op is done when the request ends whose code called it, code acts on its own
request only: what is pending belongs to the request that is served, and so does everything that
its `RequestState` holds (`Apart`).  A poll and a command keep that (`Apart.pollOp`,
`Apart.serveCommand`), so every event of a tidy run does (`Kept.react`), and its effects are each
request's own (`Kept.effects`).
-/

import Noxy.Script.Isolate

namespace Noxy
namespace Script

open Http Lib

namespace Isolate

variable {T : TextCrate} {s : Isolate} {r : ℕ}

/-- The handle is of a response to the request's own command. -/
def OwnReply (r : ℕ) (replies : List ReplyHandle) (h : ℕ) : Prop :=
  ∀ reply, replies[h]? = some reply → reply.owner = r ∧ reply.via = r

/-- What an op still has to do is about the request. -/
def OwnStage (r : ℕ) (replies : List ReplyHandle) : Stage → Prop
  | .sent target _ _ => target = r
  | .replied (.ok h) => OwnReply r replies h
  | _ => True

/-- The isolate serves the request `r`, and all that it holds is about it. -/
structure Apart (r : ℕ) (s : Isolate) : Prop where
  pending : ∀ p ∈ s.pending, p.owner = r ∧ OwnStage r s.replies p.stage
  state : ∃ st, s.state = some st ∧ st.request = r ∧
    (∀ h, st.responseBody = some h → OwnReply r s.replies h) ∧
    ∀ author result, st.result = some (author, result) → author = r

/-- What is kept: an isolate that waits has nothing pending, and one that serves a request is
about it. -/
def Kept (s : Isolate) : Prop :=
  match s.serving with
  | none => s.pending = []
  | some r => s.Apart r

theorem kept_of_serving (h : s.serving = some r) : s.Kept ↔ s.Apart r := by
  unfold Kept
  rw [h]

theorem OwnStage.mono {replies replies' : List ReplyHandle} {stage : Stage}
    (hmono : ∀ h, OwnReply r replies h → OwnReply r replies' h) (h : OwnStage r replies stage) :
    OwnStage r replies' stage := by
  cases stage with
  | called op => trivial
  | reading body => trivial
  | sent target request body => exact h
  | replied reply =>
      cases reply with
      | error e => trivial
      | ok handle => exact hmono handle h

/-- Taking the body of a response leaves its handle with the same requests. -/
theorem ownReply_set {replies : List ReplyHandle} {h : ℕ} {reply : ReplyHandle}
    (hreply : replies[h]? = some reply) (body : Option Body) (h' : ℕ)
    (hown : OwnReply r replies h') :
    OwnReply r (replies.set h { reply with body := body }) h' := by
  intro reply' hget
  rw [List.getElem?_set] at hget
  split at hget
  · rename_i heq
    subst heq
    split at hget
    · obtain rfl := Option.some.inj hget
      exact hown reply hreply
    · cases hget
  · exact hown reply' hget

/-- A response to the request's own command. -/
theorem ownReply_append (replies : List ReplyHandle) (body : Option Body) {h : ℕ}
    (hown : OwnReply r replies h ∨ h = replies.length) :
    OwnReply r (replies ++ [⟨r, r, body⟩]) h := by
  intro reply hget
  rw [List.getElem?_append] at hget
  split at hget
  · rename_i hlt
    rcases hown with hown | rfl
    · exact hown reply hget
    · exact absurd hlt (Nat.lt_irrefl _)
  · rcases Nat.eq_zero_or_pos (h - replies.length) with hz | hpos
    · rw [hz] at hget
      obtain rfl := Option.some.inj hget
      exact ⟨rfl, rfl⟩
    · rw [List.getElem?_eq_none (Nat.succ_le_of_lt hpos)] at hget
      cases hget

/-- The isolate with other bodies and other handles. -/
theorem Apart.mono (h : s.Apart r) (bodies : ℕ → Option Body) {replies : List ReplyHandle}
    (hmono : ∀ h, OwnReply r s.replies h → OwnReply r replies h) :
    Apart r { s with bodies := bodies, replies := replies } := by
  obtain ⟨hpending, st, hst, hrequest, hreply, hresult⟩ := h
  refine ⟨fun p hp => ⟨(hpending p hp).1, (hpending p hp).2.mono hmono⟩, st, hst, hrequest,
    fun handle hh => hmono handle (hreply handle hh), hresult⟩

theorem Apart.advance (h : s.Apart r) {i : ℕ} {stage : Stage}
    (hstage : OwnStage r s.replies stage) : (s.advance i r stage).Apart r := by
  refine ⟨fun p hp => ?_, h.state⟩
  rcases List.mem_or_eq_of_mem_set hp with hp | rfl
  · exact h.pending p hp
  · exact ⟨rfl, hstage⟩

theorem Apart.callOne (h : s.Apart r) (call : ScriptCall) : (s.callOne r call).Apart r := by
  obtain ⟨hpending, st, hst, hrequest, hreply, hresult⟩ := h
  cases call with
  | op op =>
      refine ⟨fun p hp => ?_, st, hst, hrequest, hreply, hresult⟩
      rcases List.mem_append.mp hp with hp | hp
      · exact hpending p hp
      · obtain rfl := List.mem_singleton.mp hp
        exact ⟨rfl, trivial⟩
  | finish result =>
      have hst' : (s.callOne r (.finish result)).state = some { st with
          result := some (r, result)
          finished := st.finished || st.request == r } := by
        rw [Isolate.callOne, hst]
        rfl
      refine ⟨hpending, _, hst', hrequest, hreply, fun author result' heq => ?_⟩
      exact (Prod.mk.inj (Option.some.inj heq)).1.symm

theorem Apart.callAll (h : s.Apart r) (calls : List ScriptCall) : (s.callAll r calls).Apart r := by
  unfold Isolate.callAll
  induction calls generalizing s with
  | nil => exact h
  | cons call calls ih => exact ih (h.callOne call)

theorem Apart.complete (h : s.Apart r) (i : ℕ) (calls : List ScriptCall) :
    (s.complete i r calls).Apart r := by
  have hrest : Apart r { s with pending := s.pending.eraseIdx i } :=
    ⟨fun p hp => h.pending p (List.mem_of_mem_eraseIdx hp), h.state⟩
  exact hrest.callAll calls

theorem serving_callAll (owner : ℕ) (calls : List ScriptCall) (s : Isolate) :
    (s.callAll owner calls).serving = s.serving := by
  unfold callAll
  induction calls generalizing s with
  | nil => rfl
  | cons call calls ih =>
      rw [List.foldl_cons, ih]
      cases call <;> rfl

theorem serving_complete (s : Isolate) (i owner : ℕ) (calls : List ScriptCall) :
    (s.complete i owner calls).serving = s.serving :=
  serving_callAll owner calls _

/-- A poll acts on the request, if what is pending is about it. -/
theorem Apart.pollOp (h : s.Apart r) {i : ℕ} {p : Pending} (hp : s.pending[i]? = some p)
    {st : RequestState} (hst : s.state = some st) (calls : List ScriptCall) :
    (s.pollOp i p st calls).1.Apart r ∧ (s.pollOp i p st calls).1.serving = s.serving ∧
      ∀ e ∈ (s.pollOp i p st calls).2, e.Own := by
  obtain ⟨hpending, st', hst', hrequest, hreply, hresult⟩ := id h
  obtain rfl : st' = st := Option.some.inj (hst'.symm.trans hst)
  obtain ⟨owner, stage⟩ := p
  obtain ⟨howner, hstage⟩ := hpending _ (List.mem_of_getElem? hp)
  obtain rfl : owner = r := howner
  unfold Isolate.pollOp
  cases stage with
  | called op =>
      cases op with
      | reqBody =>
          refine ⟨Apart.advance (h.mono _ fun _ hown => hown) trivial, rfl, fun e he => ?_⟩
          obtain rfl := List.mem_singleton.mp he
          exact hrequest.symm
      | respond request body => exact ⟨h.advance hrequest, rfl, by simp [pollCalled]⟩
      | resBody =>
          dsimp only [pollCalled]
          split
          · exact ⟨h.advance trivial, rfl, by simp⟩
          · rename_i handle reply hbind
            obtain ⟨handle', hhandle, hmap⟩ := Option.bind_eq_some_iff.mp hbind
            obtain ⟨reply', hget, heq⟩ := Option.map_eq_some_iff.mp hmap
            obtain ⟨rfl, rfl⟩ := Prod.mk.inj heq
            have htaken := h.mono s.bodies fun h' hown => ownReply_set hget none h' hown
            refine ⟨htaken.advance trivial, rfl, fun e he => ?_⟩
            obtain rfl := List.mem_singleton.mp he
            obtain ⟨ho, hv⟩ := hreply handle' hhandle reply' hget
            exact ⟨ho.symm, hv.symm⟩
  | reading body => exact ⟨h.complete i calls, serving_complete .., by simp⟩
  | sent target request body =>
      dsimp only
      split
      · exact ⟨h.complete i calls, serving_complete .., by simp⟩
      · exact ⟨h, rfl, by simp⟩
  | replied reply =>
      cases reply with
      | error e => exact ⟨h.complete i calls, serving_complete .., by simp⟩
      | ok handle =>
          have hset : Apart owner
              { s with state := some { st' with responseBody := some handle } } :=
            ⟨hpending, _, rfl, hrequest, fun h' hh' => by
              obtain rfl := Option.some.inj hh'
              exact hstage, hresult⟩
          exact ⟨hset.complete i calls, serving_complete .., by simp⟩

/-- The `call` of the request serves its own command. -/
theorem Apart.serveCommand (h : s.Apart r) (i : ℕ) (request : RequestMeta)
    (body : Option (List UInt8)) (result : Except String Response) :
    (s.serveCommand T i r r request body result).Apart r ∧
      (s.serveCommand T i r r request body result).serving = s.serving := by
  have hbodies : ∀ bodies : ℕ → Option Body, Apart r { s with bodies := bodies } := fun bodies =>
    h.mono bodies fun _ hown => hown
  have hok : ∀ (s' : Isolate) (body' : Option Body), s'.Apart r →
      Apart r (Isolate.advance { s' with replies := s'.replies ++ [ReplyHandle.mk r r body'] } i r
        (.replied (.ok s'.replies.length))) := by
    intro s' body' h'
    have hnew := h'.mono s'.bodies fun h hown => ownReply_append s'.replies body' (Or.inl hown)
    have hhandle : OwnReply r (s'.replies ++ [ReplyHandle.mk r r body']) s'.replies.length :=
      ownReply_append s'.replies body' (Or.inr rfl)
    exact hnew.advance hhandle
  unfold Isolate.serveCommand
  cases body with
  | some bytes =>
      dsimp only
      split
      · exact ⟨h.advance trivial, rfl⟩
      · exact ⟨h.advance trivial, rfl⟩
      · exact ⟨hok s _ h, rfl⟩
  | none =>
      dsimp only
      split
      · exact ⟨(hbodies _).advance trivial, rfl⟩
      · exact ⟨(hbodies _).advance trivial, rfl⟩
      · exact ⟨hok { s with bodies := Function.update s.bodies r none } _ (hbodies _), rfl⟩

/-- A tidy end leaves nothing pending. -/
theorem pending_eq_nil (h : s.Kept) {e : IsolateEvent} (htidy : s.Tidy e)
    (hend : e = .fulfil ∨ e = .fail) : s.pending = [] := by
  cases hserving : s.serving with
  | none =>
      unfold Kept at h
      rwa [hserving] at h
  | some r =>
      refine List.eq_nil_iff_forall_not_mem.mpr fun p hp => ?_
      exact htidy hend r hserving p hp (((kept_of_serving hserving).mp h).pending p hp).1

/-- The next envelope, when nothing is pending. -/
theorem Kept.start (h : s.Kept) (hidle : s.serving = none) (body : Body)
    (calls : List ScriptCall) :
    (callAll s.received calls { s with
      received := s.received + 1
      serving := some s.received
      state := some ⟨s.received, none, none, false⟩
      bodies := Function.update s.bodies s.received (some body) }).Kept := by
  have hpending : s.pending = [] := by
    unfold Kept at h
    rwa [hidle] at h
  have hstart : Apart s.received { s with
      received := s.received + 1
      serving := some s.received
      state := some ⟨s.received, none, none, false⟩
      bodies := Function.update s.bodies s.received (some body) } := by
    refine ⟨fun p hp => ?_, _, rfl, rfl, fun _ hnew => (nomatch hnew),
      fun _ _ hnew => (nomatch hnew)⟩
    rw [show s.pending = [] from hpending] at hp
    cases hp
  exact (kept_of_serving (serving_callAll ..)).mpr (hstart.callAll calls)

/-- What is pending while the requests are tidy is about the request that is served. -/
theorem Kept.serving_of_mem (h : s.Kept) {p : Pending} (hp : p ∈ s.pending) :
    ∃ r, s.serving = some r ∧ s.Apart r := by
  cases hserving : s.serving with
  | some r => exact ⟨r, rfl, (kept_of_serving hserving).mp h⟩
  | none =>
      unfold Kept at h
      rw [hserving] at h
      rw [show s.pending = [] from h] at hp
      cases hp

/-- A command is served by the `call` of the request whose code sent it. -/
theorem Kept.command (h : s.Kept) {i owner target : ℕ} {request : RequestMeta}
    {body : Option (List UInt8)} (hp : s.pending[i]? = some ⟨owner, .sent target request body⟩)
    (result : Except String Response) :
    (s.serveCommand T i owner target request body result).Kept ∧ owner = target := by
  have hmem := List.mem_of_getElem? hp
  obtain ⟨r, hserving, hapart⟩ := h.serving_of_mem hmem
  obtain ⟨rfl, rfl⟩ := hapart.pending _ hmem
  obtain ⟨hserved, hserving'⟩ := hapart.serveCommand (T := T) i request body result
  exact ⟨(kept_of_serving (hserving'.trans hserving)).mpr hserved, rfl⟩

/-- A request is answered with the result of its own code, and with the body of a response to its
own command. -/
theorem Apart.answer (h : s.Apart r) {st : RequestState} (hst : s.state = some st) {author : ℕ}
    {result : ScriptResult} (hresult : st.result = some (author, result)) :
    Effect.Own (.answer r author ((if result.passthrough then
      st.responseBody.bind fun h => s.replies[h]?.map (Prod.mk h) else none).map
        fun reply => (reply.2.owner, reply.2.via))) := by
  obtain ⟨_, st', hst', hrequest, hreply, hauthor⟩ := h
  obtain rfl : st' = st := Option.some.inj (hst'.symm.trans hst)
  refine ⟨hauthor author result hresult, fun o v hsource => ?_⟩
  obtain ⟨⟨handle, reply⟩, hsome, heq⟩ := Option.map_eq_some_iff.mp hsource
  obtain ⟨rfl, rfl⟩ := Prod.mk.inj heq
  split at hsome
  · obtain ⟨handle', hhandle, hmap⟩ := Option.bind_eq_some_iff.mp hsome
    obtain ⟨reply', hget, heq'⟩ := Option.map_eq_some_iff.mp hmap
    obtain ⟨rfl, rfl⟩ := Prod.mk.inj heq'
    exact hreply handle' hhandle reply' hget
  · cases hsome

/-- That a `call` has returned changes nothing that is kept. -/
theorem Kept.returned (h : s.Kept) (returned : ℕ → Bool) :
    Kept { s with returned := returned } := by
  unfold Kept at h ⊢
  dsimp only
  split
  · rename_i hserving
    rwa [hserving] at h
  · rename_i r hserving
    rw [hserving] at h
    exact ⟨h.pending, h.state⟩

/-- **One event** of a tidy run is about the request that is served. -/
theorem Kept.react (h : s.Kept) {e : IsolateEvent} (htidy : s.Tidy e) :
    (s.step T e).Kept ∧ ∀ eff ∈ (s.react T e).2, eff.Own := by
  unfold step
  cases e with
  | start body calls =>
      dsimp only [Isolate.react]
      split
      · exact ⟨h, by simp⟩
      · rename_i hidle
        exact ⟨h.start (by simpa using hidle) body calls, by simp⟩
  | poll i calls =>
      dsimp only [Isolate.react]
      split
      · rename_i r st p hserving hst hp
        obtain ⟨hapart, hserving', hown⟩ :=
          Apart.pollOp ((kept_of_serving hserving).mp h) hp hst calls
        exact ⟨(kept_of_serving (hserving'.trans hserving)).mpr hapart, hown⟩
      · exact ⟨h, by simp⟩
  | command i result =>
      dsimp only [Isolate.react]
      split
      · rename_i owner target request body hp
        split
        · exact ⟨h, by simp⟩
        · obtain ⟨hkept, howner⟩ := h.command (T := T) hp result
          refine ⟨hkept, fun e he => ?_⟩
          obtain rfl := List.mem_singleton.mp he
          exact howner
      · exact ⟨h, by simp⟩
  | fulfil =>
      have hpending := pending_eq_nil h htidy (Or.inl rfl)
      dsimp only [Isolate.react]
      split
      · rename_i r st hserving hst
        split
        · rename_i author result hfinished hresult
          refine ⟨hpending, fun e he => ?_⟩
          obtain rfl := List.mem_singleton.mp he
          exact ((kept_of_serving hserving).mp h).answer hst hresult
        · exact ⟨h, by simp⟩
      · exact ⟨h, by simp⟩
  | fail =>
      have hpending := pending_eq_nil h htidy (Or.inr rfl)
      exact ⟨hpending, by simp [Isolate.react]⟩
  | callReturns request =>
      dsimp only [Isolate.react]
      split
      · exact ⟨h.returned _, by simp⟩
      · exact ⟨h, by simp⟩

/-- **A tidy run** is about the requests that are served. -/
theorem Kept.effects (h : s.Kept) {events : List IsolateEvent}
    (htidy : Along (step T) Tidy s events) : ∀ e ∈ s.effects T events, e.Own := by
  induction events generalizing s with
  | nil => exact fun e he => nomatch he
  | cons event events ih =>
      obtain ⟨hkept, hown⟩ := h.react (T := T) htidy.1
      intro e he
      rcases List.mem_append.mp he with he | he
      · exact hown e he
      · exact ih hkept htidy.2 e he

end Isolate
end Script
end Noxy
