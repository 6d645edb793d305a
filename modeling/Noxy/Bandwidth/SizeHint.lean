/-
# The size hint of the throttled body

`src/middleware/bandwidth_throttle.rs`: `ThrottledBody::size_hint`.

The hint is the one of the inner body, which counts what it has not given yet.  A frame that is
held has been given and not yielded, so it is in no count.  The lower bound does not suffer from
that (`SizeHint.Bounds` asks for no more than the inner body has left), the upper bound does: it
holds of a frame that is held only by chance.  `size_hint_bounds_iff` is the exact condition of
a run, and `size_hint_hello` a body of known length.
-/

import Mathlib.Algebra.Order.Ring.Nat
import Noxy.Bandwidth.Throttle

namespace Noxy
namespace BandwidthThrottle

open Http Lib

/-- `http_body::SizeHint`. -/
structure SizeHint where
  lower : ℕ
  upper : Option ℕ
  deriving DecidableEq, Repr

/-- There is room for `n` bytes under the upper bound. -/
def SizeHint.Room (h : SizeHint) (n : ℕ) : Prop := ∀ upper ∈ h.upper, n ≤ upper

/-- The bounds hold of `n`. -/
def SizeHint.Bounds (h : SizeHint) (n : ℕ) : Prop := h.lower ≤ n ∧ h.Room n

/-- The data bytes of a frame or an error. -/
def itemBytes : Except String Frame → ℕ
  | .ok frame => frame.bytes.length
  | .error _ => 0

/-- The data bytes of frames and errors. -/
def dataBytes (yield : List (Except String Frame)) : ℕ := (yield.map itemBytes).sum

/-- The `size_hint` of an inner body, which depends on what it has not given yet and bounds
that. -/
structure Hint (inner : List Polled) where
  sizeHint : List Polled → SizeHint
  bounds : ∀ rest, rest <:+ inner → (sizeHint rest).Bounds (dataBytes (items rest))

variable {inner : List Polled} (H : Hint inner)

/-- `size_hint`. -/
def ThrottledBody.sizeHint (b : ThrottledBody) : SizeHint := H.sizeHint b.inner

namespace Session

/-- The data bytes that have not been yielded. -/
def yetToYield (s : Session) : ℕ := dataBytes s.left

/-- A poll that has to hold a frame back finds room for it. -/
def RoomToHold (seconds : ℕ → ℕ → ℚ) (s : Session) (p : Poll) : Prop :=
  ∀ frame rest, s.body.pending = none → s.body.inner = .frame frame :: rest →
    frame.bytes.length ≠ 0 → ¬ s.body.Due seconds frame.bytes.length p →
      (H.sizeHint rest).Room (frame.bytes.length + dataBytes (items rest))

variable {H} {seconds : ℕ → ℕ → ℚ} {s : Session} {p : Poll}

/-- The inner body is never put back. -/
theorem inner_suffix_poll (h : s.body.inner <:+ inner) :
    (s.poll seconds p).body.inner <:+ inner := by
  obtain ⟨a, b, hpoll, hmove⟩ := s.body.pollFrame_move seconds p
  rw [poll_eq hpoll]
  have hstep : b.inner <:+ s.body.inner := by
    cases hmove with
    | wait _ => exact List.suffix_rfl
    | release _ _ => exact List.suffix_rfl
    | done _ _ => exact List.suffix_rfl
    | sleep _ next => exact next ▸ List.suffix_cons _ _
    | fail _ next => exact next ▸ List.suffix_cons _ _
    | pass _ next _ => exact next ▸ List.suffix_cons _ _
    | deliver _ next _ _ => exact next ▸ List.suffix_cons _ _
    | hold _ next _ _ => exact next ▸ List.suffix_cons _ _
  exact hstep.trans h

/-- With no frame held, the hint is right. -/
theorem bounds_of_free (h : s.body.inner <:+ inner) (free : s.body.pending = none) :
    (s.body.sizeHint H).Bounds s.yetToYield := by
  rw [yetToYield, left, free]
  exact H.bounds _ h

/-- With one held, it is exactly if there is room for the frame. -/
theorem bounds_of_held (h : s.body.inner <:+ inner) {frame : Frame} {deadline : ℚ}
    (held : s.body.pending = some (frame, deadline)) :
    (s.body.sizeHint H).Bounds s.yetToYield ↔
      (H.sizeHint s.body.inner).Room (frame.bytes.length + dataBytes (items s.body.inner)) := by
  rw [yetToYield, left, held]
  refine ⟨And.right, fun hroom => ⟨?_, hroom⟩⟩
  exact (H.bounds _ h).1.trans (Nat.le_add_left _ _)

/-- **What a poll does to the hint.**  From a state with a right hint it ends in one exactly if
it does not have to hold a frame back for which there is no room. -/
theorem bounds_poll_iff (h : s.body.inner <:+ inner)
    (hs : (s.body.sizeHint H).Bounds s.yetToYield) :
    ((s.poll seconds p).body.sizeHint H).Bounds (s.poll seconds p).yetToYield ↔
      s.RoomToHold H seconds p := by
  have hafter : (s.poll seconds p).body.inner <:+ inner := inner_suffix_poll h
  obtain ⟨a, b, hpoll, hmove⟩ := s.body.pollFrame_move seconds p
  rw [poll_eq hpoll] at hafter ⊢
  cases hmove with
  | wait held =>
      refine ⟨fun _ frame rest free => ?_, fun _ => hs⟩
      rw [free] at held
      cases held
  | release held _ =>
      refine ⟨fun _ frame rest free => ?_, fun _ => bounds_of_free hafter rfl⟩
      rw [free] at held
      cases held
  | done free ended =>
      refine ⟨fun _ frame rest _ next => ?_, fun _ => hs⟩
      rw [ended] at next
      cases next
  | sleep free next =>
      refine ⟨fun _ frame rest _ next' => ?_, fun _ => bounds_of_free hafter free⟩
      rw [next] at next'
      cases next'
  | fail free next =>
      refine ⟨fun _ frame rest _ next' => ?_, fun _ => bounds_of_free hafter free⟩
      rw [next] at next'
      cases next'
  | pass free next empty =>
      refine ⟨fun _ frame rest _ next' size => ?_, fun _ => bounds_of_free hafter free⟩
      rw [next] at next'
      cases next'
      exact absurd empty size
  | deliver free next size due =>
      refine ⟨fun _ frame rest _ next' _ late => ?_, fun _ => bounds_of_free hafter free⟩
      rw [next] at next'
      cases next'
      exact absurd due late
  | hold free next size late =>
      rw [bounds_of_held hafter rfl]
      refine ⟨fun hroom frame rest _ next' _ _ => ?_, fun h => h _ _ free next size late⟩
      rw [next] at next'
      cases next'
      exact hroom

end Session

/-- **When the size hint bounds what is still to come.**  In every state of a run the bytes that
have not been yielded are within the bounds, exactly if no poll of it has to hold a frame back
for which the inner body, having given it, leaves no room. -/
theorem size_hint_bounds_iff (seconds : ℕ → ℕ → ℚ) (L : Layer) (polls : List Poll) :
    Always (Session.poll seconds) (fun s => (s.body.sizeHint H).Bounds s.yetToYield)
        (.start inner L.bytesPerSecond) polls ↔
      Along (Session.poll seconds) (fun s p => s.RoomToHold H seconds p)
        (.start inner L.bytesPerSecond) polls := by
  refine always_iff_along (J := fun s : Session => s.body.inner <:+ inner) ?_ ?_ ?_ ?_ polls
  · exact fun s p h => Session.inner_suffix_poll h
  · exact fun s p h hs => Session.bounds_poll_iff h hs
  · exact List.suffix_rfl
  · exact Session.bounds_of_free List.suffix_rfl rfl

/-- The hint of a body that knows its length. -/
def Hint.exact (inner : List Polled) : Hint inner where
  sizeHint rest := ⟨dataBytes (items rest), some (dataBytes (items rest))⟩
  bounds rest _ := by
    refine ⟨le_rfl, fun upper h => ?_⟩
    cases h
    exact le_rfl

/-- A body of five bytes, in one frame. -/
def hello : List Polled := [.frame (.data (utf8 "hello"))]

/-- **A frame that is not counted.**  At five bytes a second the first poll holds the frame
back; then five bytes are still to come, and the hint says that there are none. -/
theorem size_hint_hello :
    ((run (Session.poll fun bytes rate => bytes / rate) (.start hello 5) [.at 0]).body.sizeHint
        (.exact hello) = ⟨0, some 0⟩) ∧
      (run (Session.poll fun bytes rate => bytes / rate) (.start hello 5) [.at 0]).yetToYield = 5 ∧
      ¬ Always (Session.poll fun bytes rate => bytes / rate)
        (fun s => (s.body.sizeHint (.exact hello)).Bounds s.yetToYield) (.start hello 5)
        [.at 0] := by
  have hhint : (run (Session.poll fun bytes rate => bytes / rate) (.start hello 5)
      [.at 0]).body.sizeHint (.exact hello) = ⟨0, some 0⟩ := by decide +kernel
  have hleft : (run (Session.poll fun bytes rate => bytes / rate) (.start hello 5)
      [.at 0]).yetToYield = 5 := by decide +kernel
  refine ⟨hhint, hleft, fun h => ?_⟩
  have hbounds := (h [.at 0] [] rfl).2
  rw [hhint, hleft] at hbounds
  exact absurd (hbounds 0 rfl) (by decide)

end BandwidthThrottle
end Noxy
