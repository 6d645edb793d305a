/-
# The bytes of a tunnel

`src/lib.rs`: `relay_tunnel` and `copy_half`, with the bytes that they move.

`Noxy.Proxy.IdleWatchdog` follows where the two directions are and how many bytes each has
left to write.  Here a direction also has the part of its buffer that is not yet written,
and all the bytes that it has read, that its writer has taken in and that have been flushed
(`Chan`).  A write takes in any part of what is left, as `write_all` calls it again for the
rest.

Whatever the order of the events, what is written is what was read, in order, but for at
most one buffer, and a tunnel that is closed has flushed everything (`relay_lossless`).  The
directions do not get in each other's way: until the tunnel ends, each is where it would be
if it were alone, also when the other one has ended (`directions_independent`).
-/

import Mathlib.Data.List.Induction
import Noxy.Proxy.IdleWatchdog

namespace Noxy
namespace Proxy
namespace Relay

open Lib

/-- The bytes of a direction: the part of `buf` that is left to write, and what was read,
written and flushed in all. -/
structure Chan where
  buf : List UInt8
  taken : List UInt8
  written : List UInt8
  flushed : List UInt8
  deriving DecidableEq, Repr

/-- `Action`, with the bytes of a read. -/
inductive ByteAction where
  | read (d : Direction) (bytes : List UInt8)
  | eof (d : Direction)
  | write (d : Direction) (n : ℕ)
  | flush (d : Direction)
  | shutdown (d : Direction)
  | fail (d : Direction)
  | watch
  deriving DecidableEq, Repr

structure ByteEvent where
  time : ℕ
  action : ByteAction
  deriving DecidableEq, Repr

/-- The event without its bytes. -/
def ByteAction.erase : ByteAction → Action
  | .read d bytes => .read d bytes.length
  | .eof d => .eof d
  | .write d n => .write d n
  | .flush d => .flush d
  | .shutdown d => .shutdown d
  | .fail d => .fail d
  | .watch => .watch

def ByteEvent.erase (e : ByteEvent) : Event := ⟨e.time, e.action.erase⟩

/-- A tunnel with its bytes. -/
structure ByteTunnel where
  tunnel : Tunnel
  chans : Direction → Chan

namespace ByteTunnel

def start : ByteTunnel := ⟨.start, fun _ => ⟨[], [], [], []⟩⟩

/-- The tunnel with other bytes in a direction. -/
def put (s : ByteTunnel) (d : Direction) (c : Chan) : ByteTunnel :=
  { s with chans := Function.update s.chans d c }

/-- The bytes that an action moves. -/
def move (s : ByteTunnel) : ByteAction → ByteTunnel
  | .read d bytes =>
      if s.tunnel.halves d = .reading ∧ 0 < bytes.length ∧ bytes.length ≤ 8192 then
        s.put d { s.chans d with buf := bytes, taken := (s.chans d).taken ++ bytes }
      else s
  | .write d n =>
      if 0 < n ∧ n ≤ (s.tunnel.halves d).left then
        s.put d { s.chans d with
          buf := (s.chans d).buf.drop n
          written := (s.chans d).written ++ (s.chans d).buf.take n }
      else s
  | .flush d =>
      if s.tunnel.halves d = .flushing then
        s.put d { s.chans d with flushed := (s.chans d).written }
      else s
  | _ => s

/-- The tunnel after an event. -/
def step (idleTimeout : Option ℕ) (s : ByteTunnel) (e : ByteEvent) : ByteTunnel :=
  if s.tunnel.outcome ≠ none then s
  else { s.move e.action with tunnel := s.tunnel.step idleTimeout e.erase }

end ByteTunnel

/-- The tunnel after the events. -/
def relay (idleTimeout : Option ℕ) (events : List ByteEvent) : ByteTunnel :=
  run (ByteTunnel.step idleTimeout) .start events

namespace ByteTunnel

variable {s : ByteTunnel} {e : ByteEvent} {idleTimeout : Option ℕ}

/-- **The bytes do not decide where the directions go.** -/
theorem tunnel_step (s : ByteTunnel) (e : ByteEvent) :
    (s.step idleTimeout e).tunnel = s.tunnel.step idleTimeout e.erase := by
  unfold step Tunnel.step
  split
  · rfl
  · rfl

theorem tunnel_run (idleTimeout : Option ℕ) (events : List ByteEvent) (s : ByteTunnel) :
    (run (step idleTimeout) s events).tunnel =
      run (Tunnel.step idleTimeout) s.tunnel (events.map ByteEvent.erase) := by
  induction events generalizing s with
  | nil => rfl
  | cons e events ih => rw [run_cons, ih, tunnel_step, List.map_cons, run_cons]

end ByteTunnel

/-! ### One direction -/

/-- What happens to a call of `copy_half`. -/
inductive Io where
  | read (bytes : List UInt8)
  | eof
  | write (n : ℕ)
  | flush
  | shutdown
  deriving DecidableEq, Repr

/-- What an action is to a direction. -/
def ByteAction.io (d : Direction) : ByteAction → Option Io
  | .read d' bytes => if d' = d then some (.read bytes) else none
  | .eof d' => if d' = d then some .eof else none
  | .write d' n => if d' = d then some (.write n) else none
  | .flush d' => if d' = d then some .flush else none
  | .shutdown d' => if d' = d then some .shutdown else none
  | .fail _ => none
  | .watch => none

/-- `copy_half`: where it is, and its bytes. -/
structure CopyHalf where
  half : Half
  chan : Chan
  deriving DecidableEq, Repr

namespace CopyHalf

def start : CopyHalf := ⟨.reading, ⟨[], [], [], []⟩⟩

/-- `copy_half` until it next waits. -/
def step (c : CopyHalf) : Io → CopyHalf
  | .read bytes =>
      if c.half = .reading ∧ 0 < bytes.length ∧ bytes.length ≤ 8192 then
        ⟨.writing bytes.length, { c.chan with buf := bytes, taken := c.chan.taken ++ bytes }⟩
      else c
  | .eof => if c.half = .reading then { c with half := .shuttingDown } else c
  | .write n =>
      if 0 < n ∧ n ≤ c.half.left then
        ⟨if n = c.half.left then .flushing else .writing (c.half.left - n),
          { c.chan with
            buf := c.chan.buf.drop n
            written := c.chan.written ++ c.chan.buf.take n }⟩
      else c
  | .flush =>
      if c.half = .flushing then ⟨.reading, { c.chan with flushed := c.chan.written }⟩ else c
  | .shutdown => if c.half = .shuttingDown then { c with half := .done } else c

/-- What holds of a direction: the bytes it has not written are those that were read last, and
where it reads, or has stopped reading, it has flushed all that it wrote. -/
structure Sound (c : CopyHalf) : Prop where
  taken : c.chan.taken = c.chan.written ++ c.chan.buf
  left : c.chan.buf.length = c.half.left
  bound : c.chan.buf.length ≤ 8192
  flushed : c.chan.flushed <+: c.chan.written
  settled : c.half = .reading ∨ c.half = .shuttingDown ∨ c.half = .done →
    c.chan.flushed = c.chan.written

theorem sound_start : start.Sound := ⟨rfl, rfl, by decide, List.prefix_rfl, fun _ => rfl⟩

/-- Nothing is left to write where nothing is being written. -/
theorem Sound.buf_nil {c : CopyHalf} (h : c.Sound) (hleft : c.half.left = 0) : c.chan.buf = [] :=
  List.length_eq_zero_iff.mp (h.left.trans hleft)

/-- **Every step of `copy_half` keeps its bytes in order.** -/
theorem Sound.step {c : CopyHalf} (h : c.Sound) (io : Io) : (c.step io).Sound := by
  cases io with
  | read bytes =>
      unfold CopyHalf.step
      dsimp only
      split
      · rename_i hread
        have hbuf := h.buf_nil (by rw [hread.1]; rfl)
        refine ⟨?_, rfl, hread.2.2, h.flushed, ?_⟩
        · dsimp only
          rw [h.taken, hbuf, List.append_nil]
        · rintro (hw | hw | hw) <;> cases hw
      · exact h
  | eof =>
      unfold CopyHalf.step
      dsimp only
      split
      · rename_i hread
        exact ⟨h.taken, by rw [h.left, hread]; rfl, h.bound, h.flushed,
          fun _ => h.settled (.inl hread)⟩
      · exact h
  | write n =>
      unfold CopyHalf.step
      dsimp only
      split
      · rename_i hwrite
        refine ⟨?_, ?_, ?_, h.flushed.trans (List.prefix_append _ _), ?_⟩
        · dsimp only
          rw [h.taken, List.append_assoc, List.take_append_drop]
        · dsimp only
          rw [List.length_drop, h.left]
          split
          · rename_i hall
            rw [hall]
            exact Nat.sub_self _
          · rfl
        · dsimp only
          rw [List.length_drop]
          exact (Nat.sub_le _ _).trans h.bound
        · dsimp only
          split
          · rintro (hw | hw | hw) <;> cases hw
          · rintro (hw | hw | hw) <;> cases hw
      · exact h
  | flush =>
      unfold CopyHalf.step
      dsimp only
      split
      · rename_i hflush
        exact ⟨h.taken, by dsimp only; rw [h.left, hflush]; rfl, h.bound, List.prefix_rfl,
          fun _ => rfl⟩
      · exact h
  | shutdown =>
      unfold CopyHalf.step
      dsimp only
      split
      · rename_i hshut
        exact ⟨h.taken, by dsimp only; rw [h.left, hshut]; rfl, h.bound, h.flushed,
          fun _ => h.settled (.inr (.inl hshut))⟩
      · exact h

/-- A direction that has ended, or is about to, has flushed all that it read. -/
theorem Sound.flushed_all {c : CopyHalf} (h : c.Sound) (hdone : c.half = .done) :
    c.chan.flushed = c.chan.taken := by
  rw [h.settled (.inr (.inr hdone)), h.taken, h.buf_nil (by rw [hdone]; rfl), List.append_nil]

end CopyHalf

/-! ### The two together -/

namespace Tunnel

/-- The watchdog leaves the directions alone, and does not close the tunnel. -/
theorem watch_frame (s : Tunnel) (idle time : ℕ) :
    (s.watch idle time).halves = s.halves ∧
      ((s.watch idle time).outcome = some .closed → s.outcome = some .closed) := by
  unfold watch
  split
  · exact ⟨rfl, id⟩
  · split
    · exact ⟨rfl, id⟩
    · split
      · exact ⟨rfl, fun h => by cases h⟩
      · exact ⟨rfl, id⟩

/-- A tunnel that is closed has ended both directions. -/
def ClosedDone (s : Tunnel) : Prop := s.outcome = some .closed → ∀ d, s.halves d = .done

theorem closedDone_finish (s : Tunnel) (d : Direction) (hrun : s.outcome = none) :
    (s.finish d).ClosedDone := by
  unfold finish
  dsimp only
  split
  · rename_i hdone
    rintro - (_ | _)
    · exact hdone.1
    · exact hdone.2
  · intro hclosed
    rw [show (s.put d .done).outcome = s.outcome from rfl, hrun] at hclosed
    cases hclosed

theorem closedDone_step {idleTimeout : Option ℕ} (s : Tunnel) (e : Event) (h : s.ClosedDone) :
    (s.step idleTimeout e).ClosedDone := by
  unfold step
  split
  · exact h
  · rename_i hend
    have hrun : s.outcome = none := not_not.mp hend
    -- What leaves the outcome alone closes nothing.
    have hopen : ∀ s' : Tunnel, s'.outcome = s.outcome → s'.ClosedDone := by
      intro s' hs' hclosed
      rw [hs', hrun] at hclosed
      cases hclosed
    cases e.action with
    | read d n => dsimp only; split <;> exact hopen _ rfl
    | eof d => dsimp only; split <;> exact hopen _ rfl
    | write d n =>
        dsimp only
        split
        · split <;> exact hopen _ rfl
        · exact hopen _ rfl
    | flush d => dsimp only; split <;> exact hopen _ rfl
    | shutdown d =>
        dsimp only
        split
        · exact s.closedDone_finish d hrun
        · exact hopen _ rfl
    | fail d =>
        dsimp only
        split
        · exact hopen _ rfl
        · exact hopen _ rfl
        · intro hclosed
          cases hclosed
    | watch =>
        cases idleTimeout with
        | none => exact hopen _ rfl
        | some idle =>
            intro hclosed
            have := (s.watch_frame idle e.time).2 hclosed
            rw [hrun] at this
            cases this

end Tunnel

namespace ByteTunnel

variable {s : ByteTunnel} {e : ByteEvent} {idleTimeout : Option ℕ}

/-- One direction of a tunnel. -/
def dir (s : ByteTunnel) (d : Direction) : CopyHalf := ⟨s.tunnel.halves d, s.chans d⟩

theorem step_of_ended (hend : s.tunnel.outcome ≠ none) : s.step idleTimeout e = s := by
  unfold step
  rw [if_pos hend]

/-- **An event is, to each direction, what it is to `copy_half` alone.** -/
theorem dir_step (hrun : s.tunnel.outcome = none) (d : Direction) :
    (s.step idleTimeout e).dir d = ((e.action.io d).map (s.dir d).step).getD (s.dir d) := by
  obtain ⟨time, action⟩ := e
  have hlive : ¬ s.tunnel.outcome ≠ none := not_not.mpr hrun
  unfold dir step Tunnel.step
  rw [if_neg hlive, if_neg hlive]
  cases action with
  | read d' bytes =>
      simp only [ByteEvent.erase, ByteAction.erase, ByteAction.io, move]
      by_cases hd : d' = d
      · subst hd
        rw [if_pos rfl, Option.map_some, Option.getD_some, CopyHalf.step]
        dsimp only
        split
        · simp [Tunnel.put, put]
        · rfl
      · rw [if_neg hd, Option.map_none, Option.getD_none]
        split
        · simp [Tunnel.put, put, Function.update_of_ne (Ne.symm hd)]
        · rfl
  | eof d' =>
      simp only [ByteEvent.erase, ByteAction.erase, ByteAction.io, move]
      by_cases hd : d' = d
      · subst hd
        rw [if_pos rfl, Option.map_some, Option.getD_some, CopyHalf.step]
        dsimp only
        split
        · simp [Tunnel.put]
        · rfl
      · rw [if_neg hd, Option.map_none, Option.getD_none]
        split
        · simp [Tunnel.put, Function.update_of_ne (Ne.symm hd)]
        · rfl
  | write d' n =>
      simp only [ByteEvent.erase, ByteAction.erase, ByteAction.io, move]
      by_cases hd : d' = d
      · subst hd
        rw [if_pos rfl, Option.map_some, Option.getD_some, CopyHalf.step]
        dsimp only
        split
        · split
          · simp [Tunnel.put, put]
          · simp [Tunnel.put, put]
        · rfl
      · rw [if_neg hd, Option.map_none, Option.getD_none]
        split
        · split
          · simp [Tunnel.put, put, Function.update_of_ne (Ne.symm hd)]
          · simp [Tunnel.put, put, Function.update_of_ne (Ne.symm hd)]
        · rfl
  | flush d' =>
      simp only [ByteEvent.erase, ByteAction.erase, ByteAction.io, move]
      by_cases hd : d' = d
      · subst hd
        rw [if_pos rfl, Option.map_some, Option.getD_some, CopyHalf.step]
        dsimp only
        split
        · simp [Tunnel.put, put]
        · rfl
      · rw [if_neg hd, Option.map_none, Option.getD_none]
        split
        · simp [Tunnel.put, put, Function.update_of_ne (Ne.symm hd)]
        · rfl
  | shutdown d' =>
      simp only [ByteEvent.erase, ByteAction.erase, ByteAction.io, move]
      by_cases hd : d' = d
      · subst hd
        rw [if_pos rfl, Option.map_some, Option.getD_some, CopyHalf.step]
        dsimp only
        split
        · rw [(s.tunnel.finish_frame d').1]
          simp [Tunnel.put]
        · rfl
      · rw [if_neg hd, Option.map_none, Option.getD_none]
        split
        · rw [(s.tunnel.finish_frame d').1]
          simp [Tunnel.put, Function.update_of_ne (Ne.symm hd)]
        · rfl
  | fail d' =>
      simp only [ByteEvent.erase, ByteAction.erase, ByteAction.io, move]
      split <;> rfl
  | watch =>
      simp only [ByteEvent.erase, ByteAction.erase, ByteAction.io, move]
      cases idleTimeout with
      | none => rfl
      | some idle =>
          dsimp only
          rw [(s.tunnel.watch_frame idle time).1]
          rfl

/-- What holds of a tunnel. -/
structure Sound (s : ByteTunnel) : Prop where
  dirs : ∀ d, (s.dir d).Sound
  closed : s.tunnel.ClosedDone

theorem sound_step (s : ByteTunnel) (e : ByteEvent) (h : s.Sound) :
    (s.step idleTimeout e).Sound := by
  by_cases hend : s.tunnel.outcome ≠ none
  · rw [step_of_ended hend]
    exact h
  · refine ⟨fun d => ?_, ?_⟩
    · rw [dir_step (not_not.mp hend)]
      cases e.action.io d with
      | none => exact h.dirs d
      | some io => exact (h.dirs d).step io
    · rw [tunnel_step]
      exact s.tunnel.closedDone_step e.erase h.closed

theorem sound_run (idleTimeout : Option ℕ) (events : List ByteEvent) :
    (relay idleTimeout events).Sound :=
  run_of_kept (fun e _ s => s.sound_step e)
    ⟨fun _ => CopyHalf.sound_start, fun hclosed => by cases hclosed⟩

end ByteTunnel

/-- **A tunnel loses nothing, reorders nothing and repeats nothing.**  After any events, what the
writer of a direction has taken in is what was read on the other side, in order, but for the at
most 8192 bytes in the buffer; what is flushed is a first part of that; and if both sides have
closed the tunnel, all that was read has been flushed. -/
theorem relay_lossless (idleTimeout : Option ℕ) (events : List ByteEvent) (d : Direction) :
    let s := relay idleTimeout events
    (s.chans d).taken = (s.chans d).written ++ (s.chans d).buf ∧
      (s.chans d).buf.length ≤ 8192 ∧ (s.chans d).flushed <+: (s.chans d).written ∧
      (s.tunnel.outcome = some .closed → (s.chans d).flushed = (s.chans d).taken) := by
  intro s
  have hsound := ByteTunnel.sound_run idleTimeout events
  have hdir := hsound.dirs d
  exact ⟨hdir.taken, hdir.bound, hdir.flushed,
    fun hclosed => hdir.flushed_all (hsound.closed hclosed d)⟩

/-- **The directions do not get in each other's way.**  Until the tunnel ends, each direction is
where `copy_half` alone would be after the events that are its own: also one whose other side
has ended goes on. -/
theorem directions_independent (idleTimeout : Option ℕ) {events : List ByteEvent}
    (hrun : (relay idleTimeout events).tunnel.outcome = none) (d : Direction) :
    (relay idleTimeout events).dir d =
      run CopyHalf.step .start (events.filterMap fun e => e.action.io d) := by
  induction events using List.reverseRecOn with
  | nil => rfl
  | append_singleton events e ih =>
      have hconcat : relay idleTimeout (events ++ [e]) =
          (relay idleTimeout events).step idleTimeout e := run_concat _ _ _ _
      rw [hconcat] at hrun ⊢
      have hbefore : (relay idleTimeout events).tunnel.outcome = none := by
        by_contra hend
        rw [ByteTunnel.step_of_ended hend] at hrun
        exact hend hrun
      rw [ByteTunnel.dir_step hbefore, ih hbefore, List.filterMap_append, run_append]
      cases hio : e.action.io d with
      | none => simp [hio]
      | some io => simp [hio]

/-- The client sends two bytes and closes its side, and the upstream answers. -/
def halfClosed : List ByteEvent :=
  [⟨0, .read .toUpstream [1, 2]⟩, ⟨1, .write .toUpstream 2⟩, ⟨2, .flush .toUpstream⟩,
    ⟨3, .eof .toUpstream⟩, ⟨4, .shutdown .toUpstream⟩, ⟨5, .read .toClient [3, 4, 5]⟩,
    ⟨6, .write .toClient 2⟩]

/-- The hypothesis of `directions_independent` is met when one side has closed: two of the three
bytes of the answer have been written. -/
theorem directions_independent_halfClosed :
    (relay none halfClosed).tunnel.outcome = none ∧
      (relay none halfClosed).dir .toClient =
        run CopyHalf.step .start (halfClosed.filterMap fun e => e.action.io .toClient) ∧
      ((relay none halfClosed).chans .toClient).written = [3, 4] := by
  have hrun : (relay none halfClosed).tunnel.outcome = none := rfl
  exact ⟨hrun, directions_independent none hrun .toClient, rfl⟩

end Relay
end Proxy
end Noxy
