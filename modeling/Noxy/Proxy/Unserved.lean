/-
# How long a client is not served

`src/lib.rs`: `Proxy::listen_on_with_shutdown`, `Proxy::handle_forward_connection`,
`Proxy::handle_reverse_connection`.

`handshake_timeout` covers the handshake and not `acceptor.accept`, which is outside of it in
forward mode and without any timer in reverse mode: a client that has not been served yet keeps its
permit for at most `t` in all runs exactly if there is no TLS acceptor, and the proxy is a reverse
proxy or has a handshake timeout of at most `t` (`unserved_bounded_iff`).  What every event keeps
(`Server.Timed`) is that each task is in a stage that the settings lead to, and before its
deadline.
-/

import Noxy.Proxy.Lifecycle

namespace Noxy
namespace Lifecycle

open Lib Proxy

/-! ## How long a connection is in a stage -/

namespace Conn

/-- What is true at the time `now` of a connection whose task runs. -/
def Handled (cfg : Settings) (now : ℕ) (c : Conn) : Prop :=
  match c.stage with
  | .queued => False
  | .accepting => cfg.tlsAcceptor = true
  | .handshaking since =>
      cfg.mode = .forward ∧ since ≤ now ∧ cfg.inTime now c.stage = true ∧
        (cfg.tlsAcceptor = false → since = c.began)
  | .serving _ => True

variable {cfg : Settings} {now : ℕ} {c : Conn}

theorem handled_afterTls {began : ℕ} (h : cfg.tlsAcceptor = false → now = began) :
    (⟨began, cfg.afterTls now⟩ : Conn).Handled cfg now := by
  unfold Handled Settings.afterTls
  cases hmode : cfg.mode with
  | reverse => trivial
  | forward =>
      refine ⟨rfl, Nat.le_refl _, ?_, h⟩
      simp only [Settings.inTime]
      split <;> simp

theorem handled_firstStage : (⟨now, cfg.firstStage now⟩ : Conn).Handled cfg now := by
  unfold Settings.firstStage
  cases htls : cfg.tlsAcceptor with
  | true => exact htls
  | false => exact handled_afterTls fun _ => rfl

theorem Handled.begin (h : c.Handled cfg now) (time : ℕ) : c.begin cfg time = c := by
  obtain ⟨began, stage⟩ := c
  cases stage with
  | queued => exact h.elim
  | _ => rfl

theorem Handled.wait (h : c.Handled cfg now) {d : ℕ} (htime : cfg.inTime (now + d) c.stage = true) :
    c.Handled cfg (now + d) := by
  obtain ⟨began, stage⟩ := c
  cases stage with
  | handshaking since => exact ⟨h.1, Nat.le_add_right_of_le h.2.1, htime, h.2.2.2⟩
  | _ => exact h

/-- A connection moves to what comes after `acceptor.accept`, or is served. -/
theorem moves_next {stage stage' : Stage} {signalled : Bool} {e : ConnEvent}
    (h : stage.next cfg now signalled e = .moves stage') :
    stage = .accepting ∧ stage' = cfg.afterTls now ∨ ∃ place, stage' = .serving place := by
  cases e with
  | tls ok =>
      cases stage with
      | accepting =>
          cases ok with
          | false => cases h
          | true => exact .inl ⟨rfl, (Fate.moves.inj h).symm⟩
      | _ => cases h
  | handshake ok =>
      cases stage with
      | handshaking since =>
          cases ok with
          | false => cases h
          | true => exact .inr ⟨_, (Fate.moves.inj h).symm⟩
      | _ => cases h
  | expire =>
      simp only [Stage.next] at h
      split at h
      · split at h <;> cases h
      · cases h
  | read =>
      simp only [Stage.next] at h
      split at h
      · exact .inr ⟨_, (Fate.moves.inj h).symm⟩
      · cases h
  | request =>
      simp only [Stage.next] at h
      split at h
      · exact .inr ⟨_, (Fate.moves.inj h).symm⟩
      · exact .inr ⟨_, (Fate.moves.inj h).symm⟩
      · cases h
  | respond keep =>
      simp only [Stage.next] at h
      split at h
      · split at h
        · exact .inr ⟨_, (Fate.moves.inj h).symm⟩
        · cases h
      · cases h
  | close =>
      simp only [Stage.next] at h
      split at h <;> cases h
  | idle =>
      simp only [Stage.next] at h
      split at h
      · split at h <;> cases h
      · cases h
  | finish =>
      simp only [Stage.next] at h
      split at h
      · split at h <;> cases h
      · cases h

/-- A connection that moves is handled in its new stage. -/
theorem Handled.moves (h : c.Handled cfg now) {signalled : Bool} {e : ConnEvent} {stage : Stage}
    (hnext : c.stage.next cfg now signalled e = .moves stage) :
    (⟨c.began, stage⟩ : Conn).Handled cfg now := by
  rcases moves_next hnext with ⟨haccepting, rfl⟩ | ⟨place, rfl⟩
  · have htls : cfg.tlsAcceptor = true := by simpa [Handled, haccepting] using h
    exact handled_afterTls fun hno => by simp [htls] at hno
  · trivial

end Conn

namespace Server

/-- The tasks are in stages that the settings lead to, and what waits for a permit has not begun. -/
structure Timed (cfg : Settings) (s : Server) : Prop where
  tasks : ∀ c ∈ s.loop.tasks, c.Handled cfg s.now
  queue : ∀ c, s.loop.phase = .acquire c → c.stage = .queued

variable {cfg : Settings} {s : Server}

theorem mem_endTask {l : Loop Conn} {i : ℕ} {c : Conn} (h : c ∈ (l.endTask i).tasks) :
    c ∈ l.tasks := by
  unfold Loop.endTask at h
  split at h
  · exact List.mem_of_mem_eraseIdx h
  · exact h

/-- Only a spawn adds a task. -/
theorem mem_tasks_onLoop {e : LoopEvent Conn} {c : Conn} (h : c ∈ (s.onLoop cfg e).loop.tasks) :
    c ∈ s.loop.tasks ∨ e = .spawn ∧ s.loop.phase = .acquire c := by
  have hspawn : ∀ d, s.loop.phase = .acquire d → c ∈ s.loop.tasks ++ [d] →
      c ∈ s.loop.tasks ∨ s.loop.phase = .acquire c := by
    intro d hphase hc
    rcases List.mem_append.mp hc with hc | hc
    · exact .inl hc
    · exact .inr (by rw [List.mem_singleton.mp hc, hphase])
  cases e with
  | accept d => simp only [onLoop, Loop.step] at h; split at h <;> exact .inl h
  | acceptError =>
      simp only [onLoop, Loop.step] at h
      split at h
      · cases h
      · exact .inl h
  | spawn =>
      simp only [onLoop, Loop.step] at h
      split at h
      · exact (hspawn _ ‹_› h).imp_right fun h => ⟨rfl, h⟩
      · exact (hspawn _ ‹_› h).imp_right fun h => ⟨rfl, h⟩
      · exact .inl h
  | complete => exact .inl h
  | leave => simp only [onLoop, Loop.step] at h; split at h <;> exact .inl h
  | close i => exact .inl (mem_endTask h)
  | finish i =>
      simp only [onLoop, Loop.step] at h
      split at h
      · exact .inl (mem_endTask h)
      · exact .inl h
  | drained => simp only [onLoop, Loop.step] at h; split at h <;> exact .inl h
  | timeout =>
      simp only [onLoop, Loop.step] at h
      split at h
      · split at h
        · cases h
        · exact .inl h
      · exact .inl h

theorem phase_endTask {l : Loop Conn} (i : ℕ) : (l.endTask i).phase = l.phase := by
  unfold Loop.endTask
  split <;> rfl

/-- Only an accept makes the loop wait for a permit. -/
theorem acquire_onLoop {e : LoopEvent Conn} {c : Conn}
    (h : (s.onLoop cfg e).loop.phase = .acquire c) :
    s.loop.phase = .acquire c ∨ e = .accept c := by
  cases e with
  | accept d =>
      simp only [onLoop, Loop.step] at h
      split at h
      · cases h; exact .inr rfl
      · exact .inl h
  | acceptError =>
      simp only [onLoop, Loop.step] at h
      split at h
      · cases h
      · exact .inl h
  | spawn =>
      simp only [onLoop, Loop.step] at h
      split at h
      · cases h
      · cases h
      · exact .inl h
  | complete => exact .inl h
  | leave =>
      simp only [onLoop, Loop.step] at h
      split at h
      · cases h
      · exact .inl h
  | close i => exact .inl ((phase_endTask i).symm.trans h)
  | finish i =>
      simp only [onLoop, Loop.step] at h
      split at h
      · exact .inl ((phase_endTask i).symm.trans h)
      · exact .inl h
  | drained =>
      simp only [onLoop, Loop.step] at h
      split at h
      · cases h
      · exact .inl h
  | timeout =>
      simp only [onLoop, Loop.step] at h
      split at h
      · split at h
        · cases h
        · exact .inl h
      · exact .inl h

/-- An event of the loop other than a spawn. -/
theorem Timed.onLoop (h : s.Timed cfg) {e : LoopEvent Conn} (he : e ≠ .spawn)
    (hnew : ∀ c, e = .accept c → c.stage = .queued) : (s.onLoop cfg e).Timed cfg where
  tasks c hc := h.tasks c ((mem_tasks_onLoop hc).resolve_right fun hs => he hs.1)
  queue c hc := (acquire_onLoop hc).elim (h.queue c) (hnew c)

theorem Timed.setStage (h : s.Timed cfg) (i : ℕ) {c : Conn} (hc : c.Handled cfg s.now) :
    (s.setStage i c).Timed cfg where
  tasks d hd := (List.mem_or_eq_of_mem_set hd).elim (h.tasks d) fun heq => heq ▸ hc
  queue := h.queue

theorem Timed.spawn (h : s.Timed cfg) : ((s.onLoop cfg .spawn).beginTasks cfg).Timed cfg where
  tasks c hc := by
    obtain ⟨d, hd, rfl⟩ := List.mem_map.mp hc
    rcases mem_tasks_onLoop hd with hd | ⟨-, hd⟩
    · have hd := h.tasks d hd
      exact (hd.begin s.now).symm ▸ hd
    · have hbegin : d.begin cfg s.now = ⟨s.now, cfg.firstStage s.now⟩ := by
        simp only [Conn.begin, h.queue d hd]
      exact hbegin.symm ▸ Conn.handled_firstStage
  queue c hc := h.queue c ((acquire_onLoop hc).resolve_right nofun)

/-- **Every event keeps the stages and their deadlines.** -/
theorem Timed.step (h : s.Timed cfg) (e : Event) : (s.step cfg e).Timed cfg := by
  cases e with
  | accept => exact h.onLoop nofun fun c hc => by cases hc; rfl
  | acceptError => exact h.onLoop nofun nofun
  | spawn => exact h.spawn
  | complete => exact h.onLoop nofun nofun
  | leave => exact h.onLoop nofun nofun
  | drained => exact h.onLoop nofun nofun
  | timeout => exact h.onLoop nofun nofun
  | conn i e =>
      rcases step_conn cfg s i e with hstep | ⟨c, hi, ⟨stage, hnext, hstep⟩ | ⟨-, hstep⟩⟩
      · rwa [hstep]
      · rw [hstep]
        exact h.setStage i ((h.tasks c (List.mem_of_getElem? hi)).moves hnext)
      · rw [hstep]
        exact h.onLoop nofun nofun
  | wait d =>
      simp only [Server.step]
      split
      · rename_i hall
        exact ⟨fun c hc => (h.tasks c hc).wait (List.all_eq_true.mp hall c hc), h.queue⟩
      · exact h

theorem timed_run (cfg : Settings) (events : List Event) :
    (run (step cfg) (start cfg) events).Timed cfg :=
  run_of_kept (J := Timed cfg) (fun e _ _ h => h.step e) ⟨nofun, nofun⟩

/-! ## Permits without service -/

/-- In every run, a client whose task runs for more than `t` is served. -/
def UnservedAtMost (cfg : Settings) (t : ℕ) : Prop :=
  ∀ events, ∀ c ∈ (run (step cfg) (start cfg) events).loop.tasks,
    (∀ place, c.stage ≠ .serving place) → (run (step cfg) (start cfg) events).now ≤ c.began + t

/-- One client that connects and does nothing. -/
def silent (d : ℕ) : List Event := [.accept, .spawn, .wait d]

theorem run_silent (hmax : cfg.maxConnections ≠ some 0) {d : ℕ}
    (hd : cfg.inTime d (cfg.firstStage 0) = true) :
    (run (Server.step cfg) (start cfg) (silent d)).now = d ∧
      (run (Server.step cfg) (start cfg) (silent d)).loop.tasks = [⟨0, cfg.firstStage 0⟩] := by
  have hspawn : ((start cfg).step cfg .accept).step cfg .spawn =
      ⟨0, ⟨.select, cfg.maxConnections.map (· - 1), [⟨0, cfg.firstStage 0⟩], false, false⟩⟩ := by
    match hfree : cfg.maxConnections with
    | none =>
        simp [Server.step, onLoop, Loop.step, start, Loop.start, hfree, beginTasks, Conn.begin]
    | some 0 => exact absurd hfree hmax
    | some (n + 1) =>
        simp [Server.step, onLoop, Loop.step, start, Loop.start, hfree, beginTasks, Conn.begin]
  simp only [silent, run_cons, run_nil, hspawn]
  simp [Server.step, hd]

/-- **How long a client can keep a permit without being served.**  `handshake_timeout` bounds it
only if there is no TLS acceptor, whose `accept` nothing bounds; without one, and in forward mode,
it is the bound. -/
theorem unserved_bounded_iff (cfg : Settings) (hmax : cfg.maxConnections ≠ some 0) (t : ℕ) :
    UnservedAtMost cfg t ↔ cfg.tlsAcceptor = false ∧
      (cfg.mode = .reverse ∨ ∃ timeout, cfg.handshakeTimeout = some timeout ∧ timeout ≤ t) := by
  constructor
  · intro h
    -- A silent client's first stage is not one that lasts beyond `t`.
    have hsilent : cfg.inTime (t + 1) (cfg.firstStage 0) = true →
        ∃ place, cfg.firstStage 0 = .serving place := by
      intro htime
      by_contra hstage
      obtain ⟨hnow, htasks⟩ := run_silent hmax htime
      have hle := h (silent (t + 1)) ⟨0, cfg.firstStage 0⟩ (by simp [htasks])
        fun place hplace => hstage ⟨place, hplace⟩
      simp only [hnow] at hle
      omega
    cases htls : cfg.tlsAcceptor with
    | true => simp [Settings.firstStage, htls, Settings.inTime] at hsilent
    | false =>
        refine ⟨rfl, ?_⟩
        cases hmode : cfg.mode with
        | reverse => exact .inl rfl
        | forward =>
            right
            match htimeout : cfg.handshakeTimeout with
            | none =>
                simp [Settings.firstStage, htls, Settings.afterTls, hmode, Settings.inTime,
                  htimeout] at hsilent
            | some timeout =>
                refine ⟨timeout, rfl, ?_⟩
                simp [Settings.firstStage, htls, Settings.afterTls, hmode, Settings.inTime,
                  htimeout] at hsilent
                omega
  · rintro ⟨htls, hmode⟩ events c hc hstage
    have hc := (timed_run cfg events).tasks c hc
    obtain ⟨began, stage⟩ := c
    cases stage with
    | queued => exact hc.elim
    | accepting =>
        have : cfg.tlsAcceptor = true := hc
        simp [htls] at this
    | serving place => exact absurd rfl (hstage place)
    | handshaking since =>
        obtain ⟨hforward, -, htime, hsince⟩ := hc
        have hsince : since = began := hsince htls
        obtain ⟨timeout, htimeout, hle⟩ := hmode.resolve_left (by simp [hforward])
        simp only [Settings.inTime, htimeout, decide_eq_true_eq] at htime
        simp only
        omega

/-- Ten seconds for the handshake, and a hundred connections. -/
def tenSeconds (tlsAcceptor : Bool) : Settings :=
  ⟨.forward, tlsAcceptor, some 10, false, some 100, false, ⟨fun _ => false, fun _ => false⟩⟩

/-- The same handshake timeout in front of a TLS acceptor and without one. -/
theorem unserved_bounded_iff_tls :
    ¬ UnservedAtMost (tenSeconds true) 10 ∧ UnservedAtMost (tenSeconds false) 10 :=
  ⟨fun h => Bool.noConfusion ((unserved_bounded_iff (tenSeconds true) (by decide) 10).mp h).1,
    (unserved_bounded_iff (tenSeconds false) (by decide) 10).mpr
      ⟨rfl, .inr ⟨10, rfl, Nat.le_refl _⟩⟩⟩

end Server
end Lifecycle
end Noxy
