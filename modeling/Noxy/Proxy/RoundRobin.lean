/-
# Turns behind a circuit breaker

`src/middleware/circuit_breaker.rs`: `CircuitBreakerService::call`; `src/middleware/router.rs`:
`Upstream::pick` and `RouterService::call`, one around the other.

The circuit breaker calls the service inside before it asks its store, and drops the future
if the request is turned away.  The router takes its turn when it is called, not when its
future is polled.  So a stack of layers that call the service inside in their own `call`
takes a turn for every request, those that are turned away included.  A layer such as the
retry layer calls it in its future; then only the requests that were let in take turns.

`Traffic` is the breaker's store, the router's counter and the requests between the two, and
an event is what can happen to one of them, in any order.  The calls of the router are numbered.
A request that is turned away takes a number with it, and the requests that are let in can all be
those of one backend (`rejected_takes_turn`).

The requests are forwarded to the backends in order exactly if, between the numbers of any two
that are forwarded one after the other, as many are left out as make whole rounds; and then they
are spread evenly over the backends (`balanced_of_inTurn`).
-/

import Noxy.CircuitBreaker.Service
import Noxy.Lib.Turns
import Noxy.Proxy.Router

namespace Noxy
namespace Proxy

open Http Lib Store CircuitBreaker

/-- An upstream that takes its backends in turn, and has several. -/
structure RoundRobin (H : HttpCrate) extends Upstream H where
  several : 2 ≤ backends.length
  inTurn : strategy = .roundRobin

namespace RoundRobin

variable {H : HttpCrate} (u : RoundRobin H)

/-- The number of backends. -/
abbrev size : ℕ := u.backends.length

/-- The backend whose turn it is. -/
def turn (world : World H) : Fin u.size :=
  ⟨world.counters u.counter % u.size, Nat.mod_lt _ u.nonempty⟩

/-- **The target is the backend whose turn it is.** -/
theorem toTarget_fst (out : Outside H) (world : World H) :
    (u.toUpstream.toTarget out world).1 = u.backends.get (u.turn world) := by
  have hlen : ¬ u.backends.length = 1 := by
    have := u.several
    omega
  rw [Upstream.toTarget, if_neg hlen, u.inTurn]
  rfl

/-- **Its turn goes on by one**, until the counter starts over. -/
theorem counter_toTarget (out : Outside H) (world : World H) :
    (u.toUpstream.toTarget out world).2.counters u.counter =
      (world.counters u.counter + 1) % USIZE_SIZE := by
  have hlen : ¬ u.backends.length = 1 := by
    have := u.several
    omega
  rw [Upstream.toTarget, if_neg hlen, u.inTurn]
  exact Function.update_self ..

end RoundRobin

/-- When a layer calls the service inside: in its own `call`, or in its future. -/
inductive Timing where
  | call
  | future
  deriving DecidableEq, Repr

/-- The router is called in the `call` of the circuit breaker, through the layers between. -/
def routesInCall (between : List Timing) : Bool := between.all fun t => t == .call

/-- A turn that was taken: which call of the router it was, and the backend. -/
structure Taken (n : ℕ) where
  no : ℕ
  backend : Fin n

/-- A request whose future has not been polled, and its turn if it has taken one. -/
structure Called (n : ℕ) where
  key : String
  turn : Option (Taken n)

/-- A request that was let in.  `probe`: while the circuit of its key was half open. -/
structure Admitted (n : ℕ) where
  key : String
  probe : Bool
  turn : Option (Taken n)

/-- The requests between the circuit breaker and the upstream, and those that were forwarded,
each by its turn and whether it was a probe.  `routed`: how often the router has been called. -/
structure Traffic (H : HttpCrate) (n : ℕ) where
  store : SharedState
  world : World H
  routed : ℕ
  called : List (Called n)
  admitted : List (Admitted n)
  forwarded : List (Taken n × Bool)

/-- What can happen to a request. -/
inductive TrafficEvent where
  /-- The circuit breaker is called. -/
  | call (key : String)
  /-- Its future is polled for the first time. -/
  | poll (i : ℕ) (now later : ℤ) (order : IterOrder String CircuitEntry)
  /-- Its future is dropped before. -/
  | abandon (i : ℕ)
  /-- The router is called in the future. -/
  | route (i : ℕ)
  /-- The request is forwarded. -/
  | forward (i : ℕ)
  /-- The service inside has answered. -/
  | respond (i : ℕ) (success : Bool) (now later : ℤ) (order : IterOrder String CircuitEntry)
  /-- The service inside has failed, or the future is dropped. -/
  | leave (i : ℕ)

namespace Traffic

variable {H : HttpCrate}

/-- No requests, and a new store with any settings. -/
def start (n : ℕ) (world : World H) (threshold recovery halfOpenProbes maxKeys idleTtl : ℕ)
    (now : ℤ) : Traffic H n :=
  ⟨(System.start threshold recovery halfOpenProbes maxKeys idleTtl now).store, world, 0, [], [],
    []⟩

section Steps

variable (u : RoundRobin H) (out : Outside H) (between : List Timing)

/-- A request is forwarded at its turn; after that it has none. -/
def forward (s : Traffic H u.size) (i : ℕ) : Traffic H u.size :=
  match s.admitted[i]? with
  | some ⟨key, probe, some turn⟩ =>
      { s with
        admitted := s.admitted.set i ⟨key, probe, none⟩
        forwarded := s.forwarded ++ [(turn, probe)] }
  | _ => s

/-- The traffic after an event. -/
def step (s : Traffic H u.size) : TrafficEvent → Traffic H u.size
  | .call key =>
      if routesInCall between then
        { s with
          world := (u.toUpstream.toTarget out s.world).2
          routed := s.routed + 1
          called := s.called ++ [⟨key, some ⟨s.routed, u.turn s.world⟩⟩] }
      else { s with called := s.called ++ [⟨key, none⟩] }
  | .poll i now later order =>
      match s.called[i]? with
      | none => s
      | some r =>
          let c : Call := ⟨r.key, .check, now, later, order⟩
          let store := s.store.step c
          let admitted :=
            match s.store.answer c with
            | some .allow => [⟨r.key, isHalfOpen (store.circuit r.key), r.turn⟩]
            | _ => []
          { s with
            store := store
            called := s.called.eraseIdx i
            admitted := s.admitted ++ admitted }
  | .abandon i => { s with called := s.called.eraseIdx i }
  | .route i =>
      match s.admitted[i]? with
      | some ⟨key, probe, none⟩ =>
          if routesInCall between then s
          else
            { s with
              world := (u.toUpstream.toTarget out s.world).2
              routed := s.routed + 1
              admitted := s.admitted.set i ⟨key, probe, some ⟨s.routed, u.turn s.world⟩⟩ }
      | _ => s
  | .forward i => s.forward u i
  | .respond i success now later order =>
      match s.admitted[i]? with
      | none => s
      | some r =>
          { s with
            store := s.store.step ⟨r.key, .record success, now, later, order⟩
            admitted := s.admitted.eraseIdx i }
  | .leave i => { s with admitted := s.admitted.eraseIdx i }

end Steps

section Counts

variable {n : ℕ} (s : Traffic H n)

/-- How many requests were forwarded to a backend. -/
def handed (b : Fin n) : ℕ := s.forwarded.countP fun f => f.1.backend == b

/-- What an event forwards. -/
def forwards : TrafficEvent → Option (Taken n × Bool)
  | .forward i => (s.admitted[i]?).bind fun r => r.turn.map fun turn => (turn, r.probe)
  | _ => none

/-- **The requests are spread evenly**: no two backends differ by more than one, and of two
probes that were forwarded one after the other the second went to the next backend. -/
structure Balanced : Prop where
  even : ∀ a b, s.handed a ≤ s.handed b + 1
  successive : s.forwarded.IsChain fun x y =>
    x.2 = true → y.2 = true → y.1.backend.val = (x.1.backend.val + 1) % n

/-- Each request went to the backend after that of the request before it. -/
def InOrder : Prop :=
  s.forwarded.IsChain fun x y => y.1.backend.val = (x.1.backend.val + 1) % n

/-- The calls of the router between those of two requests that were forwarded one after the other
make whole rounds. -/
def WholeRounds : Prop := s.forwarded.IsChain fun x y => y.1.no ≡ x.1.no + 1 [MOD n]

/-- **Whole rounds are left out**: between the call of the router for the request that was forwarded
last and that for the request that an event forwards there are, modulo `n`, no others. -/
def InTurn (e : TrafficEvent) : Prop :=
  ∀ f ∈ s.forwards e, ∀ last ∈ s.forwarded.getLast?, f.1.no ≡ last.1.no + 1 [MOD n]

instance (e : TrafficEvent) : Decidable (s.InTurn e) :=
  inferInstanceAs (Decidable (∀ f ∈ s.forwards e, ∀ last ∈ s.forwarded.getLast?,
    f.1.no ≡ last.1.no + 1 [MOD n]))

/-- The turn is that of a request. -/
def Holds (t : Taken n) : Prop :=
  (∃ r ∈ s.called, r.turn = some t) ∨ (∃ r ∈ s.admitted, r.turn = some t) ∨
    ∃ f ∈ s.forwarded, f.1 = t

variable {s}

/-- Requests that leave take their turns with them, and no other has another turn for it. -/
theorem Holds.of_subset {s' : Traffic H n} {t : Taken n} (h : s'.Holds t)
    (hcalled : s'.called ⊆ s.called) (hadmitted : s'.admitted ⊆ s.admitted)
    (hforwarded : s'.forwarded = s.forwarded) : s.Holds t := by
  rcases h with ⟨r, hr, ht⟩ | ⟨r, hr, ht⟩ | ⟨f, hf, ht⟩
  · exact .inl ⟨r, hcalled hr, ht⟩
  · exact .inr (.inl ⟨r, hadmitted hr, ht⟩)
  · exact .inr (.inr ⟨f, hforwarded ▸ hf, ht⟩)

end Counts

section Runs

variable (u : RoundRobin H) (out : Outside H) (between : List Timing)

/-- **What an event adds to the requests that were forwarded.** -/
theorem forwarded_step (s : Traffic H u.size) (e : TrafficEvent) :
    (step u out between s e).forwarded = s.forwarded ++ (s.forwards e).toList := by
  cases e with
  | call key =>
      simp only [step, forwards]
      split <;> exact (List.append_nil _).symm
  | poll i now later order =>
      simp only [step, forwards]
      split <;> exact (List.append_nil _).symm
  | abandon i => exact (List.append_nil _).symm
  | route i =>
      simp only [step, forwards]
      split
      · split <;> exact (List.append_nil _).symm
      · exact (List.append_nil _).symm
  | forward i =>
      simp only [step, forward, forwards]
      rcases s.admitted[i]? with _ | ⟨key, probe, _ | turn⟩
      · exact (List.append_nil _).symm
      · exact (List.append_nil _).symm
      · rfl
  | respond i success now later order =>
      simp only [step, forwards]
      split <;> exact (List.append_nil _).symm
  | leave i => exact (List.append_nil _).symm

/-- **When an event leaves out whole rounds.** -/
theorem wholeRounds_step_iff (s : Traffic H u.size) (e : TrafficEvent) (hs : s.WholeRounds) :
    (step u out between s e).WholeRounds ↔ s.InTurn e := by
  have hstep := forwarded_step u out between s e
  unfold WholeRounds at hs ⊢
  unfold InTurn
  rw [hstep]
  cases s.forwards e with
  | none =>
      rw [Option.toList_none, List.append_nil]
      exact iff_of_true hs fun f h => nomatch h
  | some f =>
      rw [Option.toList_some, List.isChain_append]
      constructor
      · rintro ⟨-, -, hlast⟩ f' hf' last hmem
        obtain rfl : f = f' := Option.some.inj hf'
        exact hlast last hmem f rfl
      · intro h
        refine ⟨hs, List.isChain_singleton _, fun last hmem y hy => ?_⟩
        obtain rfl : f = y := Option.some.inj hy
        exact h f rfl last hmem

/-- **What an event does to the turns.**  It takes none, or the next one. -/
theorem step_turns (s : Traffic H u.size) (e : TrafficEvent) :
    ((step u out between s e).routed = s.routed ∧ (step u out between s e).world = s.world ∧
        ∀ t, (step u out between s e).Holds t → s.Holds t) ∨
      ((step u out between s e).routed = s.routed + 1 ∧
        (step u out between s e).world = (u.toUpstream.toTarget out s.world).2 ∧
        ∀ t, (step u out between s e).Holds t → s.Holds t ∨ t = ⟨s.routed, u.turn s.world⟩) := by
  cases e with
  | call key =>
      dsimp only [step]
      split
      · refine .inr ⟨rfl, rfl, fun t ht => ?_⟩
        rcases ht with ⟨r, hr, ht⟩ | ht
        · rcases List.mem_append.mp hr with hr | hr
          · exact .inl (.inl ⟨r, hr, ht⟩)
          · obtain rfl := List.mem_singleton.mp hr
            exact .inr (Option.some.inj ht).symm
        · exact .inl (.inr ht)
      · refine .inl ⟨rfl, rfl, fun t ht => ?_⟩
        rcases ht with ⟨r, hr, ht⟩ | ht
        · rcases List.mem_append.mp hr with hr | hr
          · exact .inl ⟨r, hr, ht⟩
          · obtain rfl := List.mem_singleton.mp hr
            cases ht
        · exact .inr ht
  | poll i now later order =>
      dsimp only [step]
      split
      · exact .inl ⟨rfl, rfl, fun _ ht => ht⟩
      · rename_i r hi
        refine .inl ⟨rfl, rfl, fun t ht => ?_⟩
        rcases ht with ⟨r', hr', ht⟩ | ⟨r', hr', ht⟩ | ht
        · exact .inl ⟨r', List.mem_of_mem_eraseIdx hr', ht⟩
        · rcases List.mem_append.mp hr' with hr' | hr'
          · exact .inr (.inl ⟨r', hr', ht⟩)
          · -- A request that is let in keeps its turn.
            split at hr'
            · obtain rfl := List.mem_singleton.mp hr'
              exact .inl ⟨r, List.mem_of_getElem? hi, ht⟩
            · exact absurd hr' List.not_mem_nil
        · exact .inr (.inr ht)
  | abandon i =>
      exact .inl ⟨rfl, rfl, fun t ht =>
        ht.of_subset (List.eraseIdx_sublist ..).subset (List.Subset.refl _) rfl⟩
  | route i =>
      dsimp only [step]
      split
      · split
        · exact .inl ⟨rfl, rfl, fun _ ht => ht⟩
        · refine .inr ⟨rfl, rfl, fun t ht => ?_⟩
          rcases ht with ht | ⟨r, hr, ht⟩ | ht
          · exact .inl (.inl ht)
          · rcases List.mem_or_eq_of_mem_set hr with hr | rfl
            · exact .inl (.inr (.inl ⟨r, hr, ht⟩))
            · exact .inr (Option.some.inj ht).symm
          · exact .inl (.inr (.inr ht))
      · exact .inl ⟨rfl, rfl, fun _ ht => ht⟩
  | forward i =>
      dsimp only [step, forward]
      split
      · rename_i key probe turn hi
        refine .inl ⟨rfl, rfl, fun t ht => ?_⟩
        rcases ht with ht | ⟨r, hr, ht⟩ | ⟨f, hf, ht⟩
        · exact .inl ht
        · rcases List.mem_or_eq_of_mem_set hr with hr | rfl
          · exact .inr (.inl ⟨r, hr, ht⟩)
          · cases ht
        · rcases List.mem_append.mp hf with hf | hf
          · exact .inr (.inr ⟨f, hf, ht⟩)
          · obtain rfl := List.mem_singleton.mp hf
            exact .inr (.inl ⟨_, List.mem_of_getElem? hi, congrArg some ht⟩)
      · exact .inl ⟨rfl, rfl, fun _ ht => ht⟩
  | respond i success now later order =>
      dsimp only [step]
      split
      · exact .inl ⟨rfl, rfl, fun _ ht => ht⟩
      · exact .inl ⟨rfl, rfl, fun t ht =>
          ht.of_subset (List.Subset.refl _) (List.eraseIdx_sublist ..).subset rfl⟩
  | leave i =>
      exact .inl ⟨rfl, rfl, fun t ht =>
        ht.of_subset (List.Subset.refl _) (List.eraseIdx_sublist ..).subset rfl⟩

/-- What the numbers say, if the counter was `c` at first: the counter has gone on with every call
of the router, and the backend of a turn follows from its number. -/
structure Numbered (c : ℕ) (s : Traffic H u.size) : Prop where
  counter : s.world.counters u.counter = (c + s.routed) % USIZE_SIZE
  taken : ∀ t, s.Holds t → t.no < s.routed ∧ t.backend.val = (c + t.no) % USIZE_SIZE % u.size

theorem numbered_step {c : ℕ} {s : Traffic H u.size} (h : s.Numbered u c) (e : TrafficEvent) :
    (step u out between s e).Numbered u c := by
  rcases step_turns u out between s e with ⟨hrouted, hworld, hheld⟩ | ⟨hrouted, hworld, hheld⟩
  · refine ⟨by rw [hrouted, hworld, h.counter], fun t ht => ?_⟩
    rw [hrouted]
    exact h.taken t (hheld t ht)
  · refine ⟨?_, fun t ht => ?_⟩
    · rw [hrouted, hworld, u.counter_toTarget, h.counter, Nat.mod_add_mod, Nat.add_assoc]
    · rw [hrouted]
      rcases hheld t ht with ht | rfl
      · obtain ⟨hlt, hbackend⟩ := h.taken t ht
        exact ⟨Nat.lt_succ_of_lt hlt, hbackend⟩
      · refine ⟨Nat.lt_succ_self _, ?_⟩
        rw [← h.counter]
        rfl

theorem routed_run_le (s : Traffic H u.size) (events : List TrafficEvent) :
    s.routed ≤ (run (step u out between) s events).routed := by
  refine run_of_kept (J := fun s' : Traffic H u.size => s.routed ≤ s'.routed)
    (fun e _ s' hs' => ?_) le_rfl
  rcases step_turns u out between s' e with ⟨hrouted, -⟩ | ⟨hrouted, -⟩ <;> omega

theorem forwarded_run_prefix (s : Traffic H u.size) (events : List TrafficEvent) :
    s.forwarded <+: (run (step u out between) s events).forwarded := by
  refine run_of_kept (J := fun s' : Traffic H u.size => s.forwarded <+: s'.forwarded)
    (fun e _ s' hs' => ?_) (List.prefix_refl _)
  rw [forwarded_step]
  exact hs'.trans (List.prefix_append _ _)

/-- **The order of the backends is that of the numbers**, as long as the counter has not started
over. -/
theorem inOrder_iff {c : ℕ} {s : Traffic H u.size} (h : s.Numbered u c)
    (hwrap : c + s.routed ≤ USIZE_SIZE) : s.InOrder ↔ s.WholeRounds := by
  refine List.IsChain.iff_of_mem_imp fun x y hx hy => ?_
  have hbackend : ∀ f ∈ s.forwarded, f.1.backend.val = (c + f.1.no) % u.size := by
    intro f hf
    obtain ⟨hlt, hval⟩ := h.taken f.1 (.inr (.inr ⟨f, hf, rfl⟩))
    rwa [Nat.mod_eq_of_lt (Nat.lt_of_lt_of_le (Nat.add_lt_add_left hlt c) hwrap)] at hval
  rw [hbackend x hx, hbackend y hy, Nat.mod_add_mod, Nat.add_assoc]
  exact ⟨Nat.ModEq.add_left_cancel' c, Nat.ModEq.add_left c⟩

/-- **In order is evenly.** -/
theorem balanced_of_inOrder {s : Traffic H u.size} (h : s.InOrder) : s.Balanced := by
  refine ⟨fun a b => ?_, h.imp fun _ _ hnext _ _ => hnext⟩
  have hchain : s.forwarded.IsChain fun x y =>
      y.1.backend.val ≡ x.1.backend.val + 1 [MOD u.size] := by
    refine h.imp fun x y hnext => ?_
    rw [hnext]
    exact Nat.mod_modEq _ _
  have hhanded : ∀ a : Fin u.size,
      s.handed a = s.forwarded.countP fun f => f.1.backend.val ≡ a.val [MOD u.size] := by
    intro a
    refine List.countP_congr fun f _ => ?_
    rw [beq_iff_eq, decide_eq_true_eq, Nat.ModEq, Nat.mod_eq_of_lt f.1.backend.isLt,
      Nat.mod_eq_of_lt a.isLt, Fin.ext_iff]
  rw [hhanded, hhanded]
  exact countP_le_of_chain u.nonempty hchain a b

/-- Of probes alone, evenly is in order. -/
theorem inOrder_of_balanced {s : Traffic H u.size} (h : s.Balanced)
    (hprobes : ∀ f ∈ s.forwarded, f.2 = true) : s.InOrder :=
  (List.IsChain.iff_of_mem_imp fun x y hx hy =>
    ⟨fun hnext => hnext (hprobes x hx) (hprobes y hy), fun hnext _ _ => hnext⟩).mp h.successive

/-- **Requests that leave out whole rounds are spread evenly.**  As long as the counter does not
start over: in every run whose forwards all leave out whole rounds, each request goes to the
backend after that of the request before it, and no run whose forwards do not has this order; and
then the requests are spread evenly in every state.  If only probes are forwarded, the requests are
spread evenly in no other run. -/
theorem balanced_of_inTurn (world : World H)
    (threshold recovery halfOpenProbes maxKeys idleTtl : ℕ) (now : ℤ) (events : List TrafficEvent)
    (hwrap : world.counters u.counter + (run (step u out between)
      (start u.size world threshold recovery halfOpenProbes maxKeys idleTtl now) events).routed <
        USIZE_SIZE) :
    let s := start u.size world threshold recovery halfOpenProbes maxKeys idleTtl now
    (Along (step u out between) InTurn s events → Always (step u out between) Balanced s events) ∧
      (Always (step u out between) InOrder s events ↔ Along (step u out between) InTurn s events) ∧
      ((∀ f ∈ (run (step u out between) s events).forwarded, f.2 = true) →
        Always (step u out between) Balanced s events →
          Along (step u out between) InTurn s events) := by
  intro s
  have hstart : s.WholeRounds ∧ s.Numbered u (world.counters u.counter) := by
    refine ⟨List.isChain_nil, ⟨(Nat.mod_eq_of_lt ?_).symm, fun t ht => ?_⟩⟩
    · exact Nat.lt_of_le_of_lt (Nat.le_add_right _ _) hwrap
    · rcases ht with ⟨r, hr, -⟩ | ⟨r, hr, -⟩ | ⟨r, hr, -⟩ <;> exact absurd hr List.not_mem_nil
  have hrounds : Always (step u out between) WholeRounds s events ↔
      Along (step u out between) InTurn s events :=
    always_iff_along (J := fun _ => True) (fun _ _ _ => trivial)
      (fun s e _ hs => wholeRounds_step_iff u out between s e hs) trivial hstart.1 events
  have hnumbered : ∀ pre, (run (step u out between) s pre).Numbered u (world.counters u.counter) :=
    fun pre => run_of_kept (J := Numbered u (world.counters u.counter))
      (fun e _ s hs => numbered_step u out between hs e) hstart.2
  have horder : ∀ pre post, events = pre ++ post →
      ((run (step u out between) s pre).InOrder ↔
        (run (step u out between) s pre).WholeRounds) := by
    intro pre post hsplit
    have hle := routed_run_le u out between (run (step u out between) s pre) post
    rw [← run_append, ← hsplit] at hle
    exact inOrder_iff u (hnumbered pre) ((Nat.add_le_add_left hle _).trans hwrap.le)
  have hiff : Always (step u out between) InOrder s events ↔
      Along (step u out between) InTurn s events := by
    rw [← hrounds]
    exact forall₂_congr fun pre post => forall_congr' fun hsplit => horder pre post hsplit
  refine ⟨fun h => (hiff.mpr h).mono fun s hs => balanced_of_inOrder u hs, hiff, ?_⟩
  intro hprobes hbalanced
  refine hiff.mp fun pre post hsplit => inOrder_of_balanced u (hbalanced pre post hsplit) ?_
  have hinitial := forwarded_run_prefix u out between (run (step u out between) s pre) post
  rw [← run_append, ← hsplit] at hinitial
  exact fun f hf => hprobes f (hinitial.subset hf)

end Runs
end Traffic

/-- Two backends in turn. -/
def twoBackends : RoundRobin .plain where
  backends := [⟨"a", "http"⟩, ⟨"b", "http"⟩]
  nonempty := by decide
  strategy := .roundRobin
  counter := 0
  several := by decide
  inTurn := rfl

/-- A request comes, and its future is polled at once. -/
def arrive (i : ℕ) (now : ℤ) : List TrafficEvent := [.call "", .poll i now now .stored]

/-- It is forwarded, and answered with a failure. -/
def failure (now : ℤ) : List TrafficEvent := [.forward 0, .respond 0 false now now .stored]

/-- Two requests are turned away between the failure and the probe. -/
def twoTurnedAway : List TrafficEvent :=
  arrive 0 0 ++ failure 0 ++ arrive 0 1 ++ arrive 0 2 ++ arrive 0 10 ++ failure 10

/-- The hypotheses of `balanced_of_inTurn` are met by two backends and two requests that are turned
away between two that are forwarded: the second goes to the second backend. -/
theorem balanced_twoTurnedAway :
    let s := Traffic.start twoBackends.size plainWorld 1 10 1 10 600 0
    let step := Traffic.step twoBackends plainOutside []
    ((run step s twoTurnedAway).forwarded.map fun f => (f.1.no, f.1.backend.val)) =
        [(0, 0), (3, 1)] ∧
      Always step Traffic.Balanced s twoTurnedAway := by
  intro s step
  refine ⟨by decide, ?_⟩
  exact (Traffic.balanced_of_inTurn twoBackends plainOutside [] plainWorld 1 10 1 10 600 0
    twoTurnedAway (by decide)).1 (by decide)

/-- **A request that is turned away takes a turn with it.**  One failure opens the circuit for
ten nanoseconds.  Each time a request is turned away before the next probe is let in, and so
the probes all go to the backend that failed; the other one gets no request at all. -/
theorem rejected_takes_turn :
    let events := arrive 0 0 ++ failure 0 ++ arrive 0 1 ++ arrive 0 10 ++ failure 10 ++
      arrive 0 11 ++ arrive 0 20 ++ failure 20
    let s := run (Traffic.step twoBackends plainOutside [])
      (Traffic.start twoBackends.size plainWorld 1 10 1 10 600 0) events
    (s.forwarded.map fun f => (f.1.no, f.1.backend.val, f.2)) =
        [(0, 0, false), (2, 0, true), (4, 0, true)] ∧
      s.handed ⟨0, by decide⟩ = 3 ∧ s.handed ⟨1, by decide⟩ = 0 := by
  intro events s
  exact ⟨by decide, by decide, by decide⟩

end Proxy
end Noxy
