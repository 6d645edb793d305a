/-
# The idle watchdog of a tunnel

`src/lib.rs`: `relay_tunnel`, `copy_half`, `idle_watchdog`.

Two directions are copied, each by reading up to 8192 bytes, writing them in as many parts as
the writer takes them in, and flushing.  They share a counter, which a read adds to; the
watchdog looks at the counter, sleeps for the idle timeout and looks again, and a counter that
has not moved ends the tunnel.  All of it is one task, so an event happens at once; the timer may
be late and is never early.  Times are in nanoseconds.

A write does not move the counter.  So a tunnel that is ended as idle has read nothing since the
watchdog looked before, but it may have written what it had read by then: it is certain to have
been still exactly if, at that look, neither direction had bytes left to write
(`idle_only_when_still_iff`; `idle_while_writing` is a run).
-/

import Mathlib.Algebra.Order.Ring.Rat
import Noxy.Lib.Run

namespace Noxy
namespace Proxy
namespace Relay

open Lib

/-- The two calls of `copy_half`. -/
inductive Direction where
  | toUpstream
  | toClient
  deriving DecidableEq, Repr

/-- Where a call of `copy_half` waits. -/
inductive Half where
  | reading
  | writing (left : ℕ)
  | flushing
  | shuttingDown
  | done
  deriving DecidableEq, Repr

/-- The bytes that have been read and not written. -/
def Half.left : Half → ℕ
  | .writing left => left
  | _ => 0

/-- `TunnelOutcome`, with the time at which the watchdog ended the tunnel. -/
inductive Outcome where
  | closed
  | idle (time : ℕ)
  | error
  deriving DecidableEq, Repr

/-- A tunnel: the directions, `activity`, and the watchdog's `last` with the time at which it
was loaded. -/
structure Tunnel where
  halves : Direction → Half
  activity : ℕ
  last : Option (ℕ × ℕ)
  outcome : Option Outcome

/-- What may happen next. -/
inductive Action where
  | read (d : Direction) (n : ℕ)
  | eof (d : Direction)
  | write (d : Direction) (n : ℕ)
  | flush (d : Direction)
  | shutdown (d : Direction)
  | fail (d : Direction)
  /-- The watchdog loads the counter. -/
  | watch
  deriving DecidableEq, Repr

structure Event where
  time : ℕ
  action : Action
  deriving DecidableEq, Repr

namespace Tunnel

/-- Before anything has been polled. -/
def start : Tunnel := ⟨fun _ => .reading, 0, none, none⟩

/-- The tunnel with a direction in another place. -/
def put (s : Tunnel) (d : Direction) (h : Half) : Tunnel :=
  { s with halves := Function.update s.halves d h }

/-- A direction has ended, and `try_join!` with the second of them. -/
def finish (s : Tunnel) (d : Direction) : Tunnel :=
  let s := s.put d .done
  if s.halves .toUpstream = .done ∧ s.halves .toClient = .done then
    { s with outcome := some .closed }
  else s

/-- `idle_watchdog`: the first load, or the one after a sleep. -/
def watch (idle : ℕ) (s : Tunnel) (time : ℕ) : Tunnel :=
  match s.last with
  | none => { s with last := some (s.activity, time) }
  | some (last, slept) =>
      if time < slept + idle then s
      else if s.activity = last then { s with outcome := some (.idle time) }
      else { s with last := some (s.activity, time) }

/-- The event is a read of bytes. -/
def Reads (s : Tunnel) (e : Event) : Prop :=
  ∃ d n, e.action = .read d n ∧ s.outcome = none ∧ s.halves d = .reading ∧ 0 < n ∧ n ≤ 8192

/-- The event is a write of bytes. -/
def Writes (s : Tunnel) (e : Event) : Prop :=
  ∃ d n, e.action = .write d n ∧ s.outcome = none ∧ 0 < n ∧ n ≤ (s.halves d).left

/-- The tunnel after an event; one that cannot happen changes nothing. -/
def step (idleTimeout : Option ℕ) (s : Tunnel) (e : Event) : Tunnel :=
  if s.outcome ≠ none then s
  else match e.action with
    | .read d n =>
        if s.halves d = .reading ∧ 0 < n ∧ n ≤ 8192 then
          { s.put d (.writing n) with activity := (s.activity + 1) % 2 ^ 64 }
        else s
    | .eof d => if s.halves d = .reading then s.put d .shuttingDown else s
    | .write d n =>
        if 0 < n ∧ n ≤ (s.halves d).left then
          if n = (s.halves d).left then s.put d .flushing
          else s.put d (.writing ((s.halves d).left - n))
        else s
    | .flush d => if s.halves d = .flushing then s.put d .reading else s
    | .shutdown d => if s.halves d = .shuttingDown then s.finish d else s
    | .fail d =>
        match s.halves d with
        -- An error of `shutdown` is ignored.
        | .shuttingDown | .done => s
        | _ => { s with outcome := some .error }
    | .watch =>
        match idleTimeout with
        | none => s
        | some idle => s.watch idle e.time

/-- Neither direction has bytes left to write. -/
def Quiet (s : Tunnel) : Prop := ∀ d, (s.halves d).left = 0

/-- The event moves bytes. -/
def Moves (s : Tunnel) (e : Event) : Prop := s.Reads e ∨ s.Writes e

variable {s : Tunnel} {e : Event}

theorem Quiet.put (h : s.Quiet) (d : Direction) {half : Half} (hleft : half.left = 0) :
    (s.put d half).Quiet := by
  intro d'
  unfold Tunnel.put
  dsimp only
  by_cases hd : d' = d
  · rw [hd, Function.update_self, hleft]
  · rw [Function.update_of_ne hd, h d']

theorem Quiet.not_writes (h : s.Quiet) : ¬ s.Writes e := by
  rintro ⟨d, n, -, -, hpos, hle⟩
  rw [h d] at hle
  omega

theorem finish_frame (s : Tunnel) (d : Direction) :
    (s.finish d).halves = (s.put d .done).halves ∧ (s.finish d).activity = s.activity ∧
      (s.finish d).last = s.last ∧ ((s.finish d).outcome = s.outcome ∨
        (s.finish d).outcome = some .closed) := by
  unfold finish
  dsimp only
  split
  · exact ⟨rfl, rfl, rfl, .inr rfl⟩
  · exact ⟨rfl, rfl, rfl, .inl rfl⟩

/-- **What an event of the directions can do**: a read moves the counter, and anything else
leaves it alone and no more bytes to write. -/
theorem step_direction (idleTimeout : Option ℕ) (hwatch : e.action ≠ .watch) :
    (s.step idleTimeout e).last = s.last ∧
      ((s.step idleTimeout e).outcome = s.outcome ∨ (s.step idleTimeout e).outcome = some .closed ∨
        (s.step idleTimeout e).outcome = some .error) ∧
      ((s.Reads e ∧ (s.step idleTimeout e).activity = (s.activity + 1) % 2 ^ 64) ∨
        (¬ s.Reads e ∧ (s.step idleTimeout e).activity = s.activity ∧
          (s.Quiet → (s.step idleTimeout e).Quiet))) := by
  unfold step
  by_cases hend : s.outcome ≠ none
  · rw [if_pos hend]
    refine ⟨rfl, .inl rfl, .inr ⟨?_, rfl, id⟩⟩
    rintro ⟨d, n, -, hrun, -⟩
    exact hend hrun
  rw [if_neg hend]
  have hrun : s.outcome = none := not_not.mp hend
  have hother : (∀ d n, e.action ≠ .read d n) → ¬ s.Reads e := by
    rintro hne ⟨d, n, hread, -⟩
    exact hne d n hread
  cases haction : e.action with
  | watch => exact absurd haction hwatch
  | read d n =>
      dsimp only
      split
      · rename_i hread
        exact ⟨rfl, .inl rfl, .inl ⟨⟨d, n, haction, hrun, hread⟩, rfl⟩⟩
      · rename_i hread
        refine ⟨rfl, .inl rfl, .inr ⟨?_, rfl, id⟩⟩
        rintro ⟨d', n', haction', -, hread'⟩
        rw [haction] at haction'
        cases haction'
        exact hread hread'
  | eof d =>
      have hread : ¬ s.Reads e := hother (by simp [haction])
      dsimp only
      split
      · exact ⟨rfl, .inl rfl, .inr ⟨hread, rfl, fun h => h.put d rfl⟩⟩
      · exact ⟨rfl, .inl rfl, .inr ⟨hread, rfl, id⟩⟩
  | write d n =>
      have hread : ¬ s.Reads e := hother (by simp [haction])
      dsimp only
      split
      · split
        · exact ⟨rfl, .inl rfl, .inr ⟨hread, rfl, fun h => h.put d rfl⟩⟩
        · refine ⟨rfl, .inl rfl, .inr ⟨hread, rfl, fun h => h.put d ?_⟩⟩
          rw [h d, Half.left, Nat.zero_sub]
      · exact ⟨rfl, .inl rfl, .inr ⟨hread, rfl, id⟩⟩
  | flush d =>
      have hread : ¬ s.Reads e := hother (by simp [haction])
      dsimp only
      split
      · exact ⟨rfl, .inl rfl, .inr ⟨hread, rfl, fun h => h.put d rfl⟩⟩
      · exact ⟨rfl, .inl rfl, .inr ⟨hread, rfl, id⟩⟩
  | shutdown d =>
      have hread : ¬ s.Reads e := hother (by simp [haction])
      dsimp only
      split
      · obtain ⟨hhalves, hactivity, hlast, houtcome⟩ := s.finish_frame d
        refine ⟨hlast, houtcome.imp_right .inl, .inr ⟨hread, hactivity, fun h => ?_⟩⟩
        have hput : (s.put d .done).Quiet := h.put d rfl
        unfold Quiet
        rw [hhalves]
        exact hput
      · exact ⟨rfl, .inl rfl, .inr ⟨hread, rfl, id⟩⟩
  | fail d =>
      have hread : ¬ s.Reads e := hother (by simp [haction])
      dsimp only
      split
      · exact ⟨rfl, .inl rfl, .inr ⟨hread, rfl, id⟩⟩
      · exact ⟨rfl, .inl rfl, .inr ⟨hread, rfl, id⟩⟩
      · exact ⟨rfl, .inr (.inr rfl), .inr ⟨hread, rfl, id⟩⟩

/-- The watchdog ends a tunnel that runs only if the counter is what it was. -/
theorem watch_idle {idle time T : ℕ} (h : (s.watch idle time).outcome = some (.idle T))
    (hrun : s.outcome = none) :
    ∃ slept, s.last = some (s.activity, slept) ∧ slept + idle ≤ time ∧ T = time := by
  unfold watch at h
  cases hlast : s.last with
  | none =>
      rw [hlast] at h
      dsimp only at h
      rw [hrun] at h
      cases h
  | some l =>
      obtain ⟨last, slept⟩ := l
      rw [hlast] at h
      dsimp only at h
      split at h
      · rw [hrun] at h
        cases h
      · rename_i hdue
        split at h
        · rename_i hsame
          cases h
          exact ⟨slept, by rw [hsame], Nat.le_of_not_lt hdue, rfl⟩
        · rw [hrun] at h
          cases h

end Tunnel

/-! ### Runs -/

/-- The events come in the order of their times. -/
def Clock (events : List Event) : Prop := events.Pairwise fun e e' => e.time ≤ e'.time

/-- The reads that events ask for. -/
def Event.isRead (e : Event) : Bool :=
  match e.action with
  | .read _ _ => true
  | _ => false

theorem Tunnel.Reads.isRead {s : Tunnel} {e : Event} (h : s.Reads e) : e.isRead = true := by
  obtain ⟨d, n, haction, -⟩ := h
  rw [Event.isRead, haction]

/-- **The directions between two looks of the watchdog.**  They leave its memory alone and do
not end the tunnel as idle; the counter is moved by the reads; and with nothing left to write,
no read means that no byte is moved. -/
theorem run_directions (idleTimeout : Option ℕ) {mid : List Event}
    (hmid : ∀ e ∈ mid, e.action ≠ .watch) (s : Tunnel) :
    (run (Tunnel.step idleTimeout) s mid).last = s.last ∧
      (∀ T, (run (Tunnel.step idleTimeout) s mid).outcome = some (.idle T) →
        s.outcome = some (.idle T)) ∧
      ∃ reads ≤ mid.countP Event.isRead,
        (run (Tunnel.step idleTimeout) s mid).activity % 2 ^ 64 = (s.activity + reads) % 2 ^ 64 ∧
        (reads = 0 → s.Quiet →
          Along (Tunnel.step idleTimeout) (fun s e => ¬ s.Moves e) s mid) := by
  induction mid generalizing s with
  | nil => exact ⟨rfl, fun _ h => h, 0, Nat.zero_le _, rfl, fun _ _ => trivial⟩
  | cons e mid ih =>
      obtain ⟨hlast, houtcome, hcases⟩ :=
        s.step_direction idleTimeout (hmid e (List.mem_cons_self ..))
      obtain ⟨ihlast, ihoutcome, reads, hreads, hactivity, hquiet⟩ :=
        ih (fun e' he' => hmid e' (List.mem_cons_of_mem _ he')) (s.step idleTimeout e)
      rw [run_cons, List.countP_cons]
      refine ⟨ihlast.trans hlast, fun T hT => ?_, ?_⟩
      · have hstep := ihoutcome T hT
        rcases houtcome with h | h | h
        · exact h ▸ hstep
        · rw [h] at hstep
          cases hstep
        · rw [h] at hstep
          cases hstep
      · rcases hcases with ⟨hread, hmoved⟩ | ⟨hread, hsame, hkept⟩
        · refine ⟨reads + 1, by simp [hread.isRead, hreads], ?_, fun h => by omega⟩
          rw [hactivity, hmoved]
          omega
        · refine ⟨reads, by omega, ?_, fun hzero hs => ⟨?_, hquiet hzero (hkept hs)⟩⟩
          · rw [hactivity, hsame]
          · rintro (h | h)
            · exact hread h
            · exact hs.not_writes h

/-- The watchdog has just looked, and the tunnel goes on. -/
def Tunnel.Watched (s : Tunnel) (t : ℕ) : Prop :=
  s.outcome = none ∧ s.last = some (s.activity, t)

/-- The tunnel after the events, under an idle timeout. -/
def relayed (idle : ℕ) (events : List Event) : Tunnel :=
  run (Tunnel.step (some idle)) .start events

/-- In the idle interval before `T` the events move no byte. -/
def Still (idle T : ℕ) (events : List Event) : Prop :=
  Along (Tunnel.step (some idle)) (fun s e => s.Moves e → e.time + idle ≤ T) .start events

theorem Clock.le_last {events : List Event} {last : Event} (h : Clock (events ++ [last])) :
    ∀ e ∈ events ++ [last], e.time ≤ last.time := by
  intro e he
  rcases List.mem_append.mp he with he | he
  · exact (List.pairwise_append.mp h).2.2 e he last (List.mem_singleton_self _)
  · rw [List.mem_singleton.mp he]

theorem Clock.concat {events : List Event} {last : Event} (h : Clock events)
    (hle : ∀ e ∈ events, e.time ≤ last.time) : Clock (events ++ [last]) := by
  refine List.pairwise_append.mpr ⟨h, List.pairwise_singleton _ _, fun e he l hl => ?_⟩
  rw [List.mem_singleton.mp hl]
  exact hle e he

theorem relayed_append (idle : ℕ) (events events' : List Event) :
    relayed idle (events ++ events') =
      run (Tunnel.step (some idle)) (relayed idle events) events' :=
  run_append _ _ _ _

/-- **The look that ends a tunnel.**  It comes an idle timeout after the one before, and finds
the counter where that one found it. -/
theorem Tunnel.Watched.of_idle {idle t T : ℕ} {s : Tunnel} (h : s.Watched t) {mid : List Event}
    (hmid : ∀ e ∈ mid, e.action ≠ .watch)
    (hidle : (run (Tunnel.step (some idle)) s (mid ++ [⟨T, .watch⟩])).outcome =
      some (.idle T)) :
    t + idle ≤ T ∧ (run (Tunnel.step (some idle)) s mid).activity = s.activity := by
  obtain ⟨hlast, houtcome, -⟩ := run_directions (some idle) hmid s
  rw [run_concat] at hidle
  generalize run (Tunnel.step (some idle)) s mid = s' at hidle hlast houtcome ⊢
  have hrun : s'.outcome = none := by
    by_contra hend
    rw [Tunnel.step, if_pos hend] at hidle
    have := houtcome T hidle
    rw [h.1] at this
    cases this
  rw [Tunnel.step, if_neg (not_not.mpr hrun)] at hidle
  obtain ⟨slept, hslept, hdue, -⟩ := Tunnel.watch_idle hidle hrun
  rw [hlast, h.2, Option.some.injEq, Prod.mk.injEq] at hslept
  obtain ⟨hsame, rfl⟩ := hslept
  exact ⟨hdue, hsame.symm⟩

/-- A direction that has bytes left writes them when the timeout is over, and the watchdog ends
the tunnel all the same. -/
theorem Tunnel.Watched.write_idle (idle : ℕ) {t : ℕ} {s : Tunnel} (h : s.Watched t) {d : Direction}
    (hleft : 0 < (s.halves d).left) :
    s.Moves ⟨t + idle, .write d (s.halves d).left⟩ ∧
      (run (Tunnel.step (some idle)) s [⟨t + idle, .write d (s.halves d).left⟩,
        ⟨t + idle, .watch⟩]).outcome = some (.idle (t + idle)) := by
  refine ⟨.inr ⟨d, _, rfl, h.1, hleft, le_rfl⟩, ?_⟩
  have hwrite : s.step (some idle) ⟨t + idle, .write d (s.halves d).left⟩ =
      s.put d .flushing := by
    rw [Tunnel.step, if_neg (not_not.mpr h.1)]
    dsimp only
    rw [if_pos ⟨hleft, le_rfl⟩, if_pos rfl]
  have hrun : (s.put d .flushing).outcome = none := h.1
  have hlast : (s.put d .flushing).last = some ((s.put d .flushing).activity, t) := h.2
  rw [run_cons, hwrite, run_cons, run_nil, Tunnel.step, if_neg (not_not.mpr hrun)]
  dsimp only
  rw [Tunnel.watch, hlast]
  dsimp only
  rw [if_neg (Nat.lt_irrefl _), if_pos rfl]

/-- **When the watchdog ends only tunnels that are still.**  After a look at the time `t`, the
next one ends the tunnel as idle only if no byte has been moved for the idle timeout, whatever
happens in between (short of as many reads as the counter has values), exactly if at `t`
neither direction had bytes left to write. -/
theorem idle_only_when_still_iff {idle t : ℕ} {before : List Event}
    (hclock : Clock (before ++ [⟨t, .watch⟩]))
    (hwatched : (relayed idle (before ++ [⟨t, .watch⟩])).Watched t) :
    (∀ mid T, Clock (before ++ [⟨t, .watch⟩] ++ mid ++ [⟨T, .watch⟩]) →
        (∀ e ∈ mid, e.action ≠ .watch) → mid.countP Event.isRead < 2 ^ 64 →
        (relayed idle (before ++ [⟨t, .watch⟩] ++ mid ++ [⟨T, .watch⟩])).outcome =
          some (.idle T) →
        Still idle T (before ++ [⟨t, .watch⟩] ++ mid)) ↔
      idle = 0 ∨ (relayed idle (before ++ [⟨t, .watch⟩])).Quiet := by
  generalize hlooked : before ++ [(⟨t, .watch⟩ : Event)] = looked at hclock hwatched ⊢
  have hle : ∀ e ∈ looked, e.time ≤ t := by
    subst hlooked
    exact hclock.le_last
  constructor
  · intro h
    by_contra hnot
    obtain ⟨hidle, hbusy⟩ := not_or.mp hnot
    obtain ⟨d, hd⟩ := not_forall.mp hbusy
    obtain ⟨hmoves, hended⟩ := hwatched.write_idle idle (Nat.pos_of_ne_zero hd)
    have hlate : ∀ e ∈ looked, e.time ≤ t + idle := fun e he => (hle e he).trans (by omega)
    have hstill := h [⟨t + idle, .write d ((relayed idle looked).halves d).left⟩] (t + idle)
      ((hclock.concat hlate).concat (hclock.concat hlate).le_last)
      (by simp) (by simp [Event.isRead]) (by
        rw [List.append_assoc, relayed_append]
        exact hended)
    have : t + idle + idle ≤ t + idle := (along_append.mp hstill).2.1 hmoves
    omega
  · rintro hquiet mid T hclock' hmid hcount hidle
    rw [List.append_assoc, relayed_append] at hidle
    obtain ⟨hdue, hsame⟩ := hwatched.of_idle hmid hidle
    refine along_append.mpr ⟨along_of_forall (fun s e he _ => ?_) _, ?_⟩
    · have := hle e he
      omega
    · rcases hquiet with rfl | hquiet
      · refine along_of_forall (fun s e he _ => ?_) _
        exact hclock'.le_last e (List.mem_append_left _ (List.mem_append_right _ he))
      · obtain ⟨-, -, reads, hreads, hactivity, hstill⟩ :=
          run_directions (some idle) hmid (relayed idle looked)
        rw [hsame] at hactivity
        exact (hstill (by omega) hquiet).mono fun s e hnot hmoves => absurd hmoves hnot

/-- Five bytes are relayed. -/
def quick : List Event :=
  [⟨0, .watch⟩, ⟨1, .read .toUpstream 5⟩, ⟨2, .write .toUpstream 5⟩, ⟨3, .flush .toUpstream⟩]

/-- Five bytes are relayed at once, and the tunnel ends as idle when it has been still for ten
seconds. -/
theorem idle_only_when_still_quick :
    Clock (quick ++ [⟨10, .watch⟩]) ∧ (relayed 10 (quick ++ [⟨10, .watch⟩])).Watched 10 ∧
      (relayed 10 (quick ++ [⟨10, .watch⟩] ++ [] ++ [⟨20, .watch⟩])).outcome = some (.idle 20) ∧
      Still 10 20 (quick ++ [⟨10, .watch⟩] ++ []) := by
  have hclock : Clock (quick ++ [⟨10, .watch⟩]) := by
    unfold Clock quick
    decide
  have hwatched : (relayed 10 (quick ++ [⟨10, .watch⟩])).Watched 10 := ⟨rfl, rfl⟩
  have hclock' : Clock (quick ++ [⟨10, .watch⟩] ++ [] ++ [⟨20, .watch⟩]) := by
    unfold Clock quick
    decide
  have hidle : (relayed 10 (quick ++ [⟨10, .watch⟩] ++ [] ++ [⟨20, .watch⟩])).outcome =
      some (.idle 20) := rfl
  refine ⟨hclock, hwatched, hidle, ?_⟩
  refine (idle_only_when_still_iff hclock hwatched).mpr (.inr ?_) [] 20 hclock' ?_ ?_ hidle
  · rintro (_ | _) <;> rfl
  · exact List.forall_mem_nil _
  · decide

/-- What the client has sent is written slowly. -/
def slowly : List Event :=
  [⟨0, .watch⟩, ⟨1, .read .toUpstream 8192⟩, ⟨10, .watch⟩, ⟨15, .write .toUpstream 4096⟩]

/-- **A tunnel that is ended while it writes.**  The timeout is 10, 4096 bytes have been written
at 15, and the tunnel is ended as idle at 20. -/
theorem idle_while_writing :
    Clock (slowly ++ [⟨20, .watch⟩]) ∧
      (relayed 10 (slowly ++ [⟨20, .watch⟩])).outcome = some (.idle 20) ∧
      ¬ Still 10 20 slowly := by
  refine ⟨?_, rfl, ?_⟩
  · unfold Clock slowly
    decide
  · rintro ⟨-, -, -, h, -⟩
    have hmoves : (relayed 10 (slowly.take 3)).Moves ⟨15, .write .toUpstream 4096⟩ :=
      .inr ⟨.toUpstream, 4096, rfl, rfl, by decide, by decide⟩
    exact absurd (h hmoves) (by decide)

end Relay
end Proxy
end Noxy
