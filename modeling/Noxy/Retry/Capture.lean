/-
# Capturing a request body while it is sent

`src/middleware/retry.rs`: `ReplayCapture` and `RecordingBody`.

The first attempt streams the body of the request, and `RecordingBody` hands every
data frame it passes on to the capture.  The capture gives up when the data gets
longer than its limit or the body fails, and is complete when the body has ended.
How often the body is polled is up to the inner service.

`snapshot_polls` says what the capture is worth after any number of polls: all the
data of the body if its end was reached without an error and the data is within the
limit, and nothing otherwise.
-/

import Noxy.Http.Body

namespace Noxy
namespace Retry

open Http

/-- `ReplayCapture`. -/
structure ReplayCapture where
  bytes : List UInt8
  maxBytes : ℕ
  overflowed : Bool
  complete : Bool
  deriving DecidableEq, Repr

namespace ReplayCapture

/-- `ReplayCapture::new`. -/
def new (maxBytes : ℕ) : ReplayCapture := ⟨[], maxBytes, false, false⟩

/-- `record_chunk`.  No two lengths of byte strings in memory add up to more than a
`usize` holds, so `saturating_add` is addition. -/
def recordChunk (c : ReplayCapture) (chunk : List UInt8) : ReplayCapture :=
  if c.overflowed then c
  else if c.maxBytes < c.bytes.length + chunk.length then
    { c with bytes := [], overflowed := true }
  else { c with bytes := c.bytes ++ chunk }

/-- `snapshot`. -/
def snapshot (c : ReplayCapture) : Option (List UInt8) :=
  if c.complete && !c.overflowed then some c.bytes else none

section Recording

variable {bytes chunk : List UInt8} {maxBytes : ℕ}

theorem recordChunk_of_le (h : bytes.length + chunk.length ≤ maxBytes) :
    recordChunk ⟨bytes, maxBytes, false, false⟩ chunk =
      ⟨bytes ++ chunk, maxBytes, false, false⟩ := by
  rw [recordChunk, if_neg Bool.false_ne_true, if_neg (Nat.not_lt.mpr h)]

theorem overflowed_recordChunk (h : maxBytes < bytes.length + chunk.length) :
    (recordChunk ⟨bytes, maxBytes, false, false⟩ chunk).overflowed = true := by
  rw [recordChunk, if_neg Bool.false_ne_true, if_pos h]

end Recording

end ReplayCapture

/-- `RecordingBody`. -/
structure RecordingBody where
  inner : Body
  capture : ReplayCapture
  deriving DecidableEq, Repr

namespace RecordingBody

/-- `RecordingBody::poll_frame`, when the inner body is ready. -/
def pollFrame (r : RecordingBody) : Option (Except String Frame) × RecordingBody :=
  match r.inner.pollFrame with
  | (some (.ok frame), inner) =>
      match frame with
      | .data bytes => (some (.ok frame), ⟨inner, r.capture.recordChunk bytes⟩)
      | .trailers _ => (some (.ok frame), ⟨inner, r.capture⟩)
  | (some (.error e), inner) =>
      (some (.error e), ⟨inner, { r.capture with overflowed := true }⟩)
  | (none, inner) => (none, ⟨inner, { r.capture with complete := true }⟩)

/-- The body after a number of polls. -/
def polls : ℕ → RecordingBody → RecordingBody
  | 0, r => r
  | n + 1, r => polls n r.pollFrame.2

/-- **Recording does not change what is sent.** -/
theorem pollFrame_transparent (r : RecordingBody) :
    r.pollFrame.1 = r.inner.pollFrame.1 ∧ r.pollFrame.2.inner = r.inner.pollFrame.2 := by
  unfold pollFrame
  rcases r.inner.pollFrame with ⟨_ | e | (bytes | lines), inner⟩ <;> exact ⟨rfl, rfl⟩

/-- A capture that gave up stays so. -/
theorem overflowed_pollFrame {r : RecordingBody} (h : r.capture.overflowed = true) :
    r.pollFrame.2.capture.overflowed = true := by
  unfold pollFrame
  rcases r.inner.pollFrame with ⟨_ | e | (bytes | lines), inner⟩
  · exact h
  · rfl
  · show (r.capture.recordChunk bytes).overflowed = true
    rwa [ReplayCapture.recordChunk, if_pos h]
  · exact h

theorem snapshot_polls_of_overflowed (n : ℕ) :
    ∀ {r : RecordingBody}, r.capture.overflowed = true →
      (r.polls n).capture.snapshot = none := by
  induction n with
  | zero =>
      intro r h
      show r.capture.snapshot = none
      rw [ReplayCapture.snapshot, h, Bool.not_true, Bool.and_false, if_neg Bool.false_ne_true]
  | succ n ih =>
      intro r h
      exact ih (overflowed_pollFrame h)

/-- A body at its end adds nothing to a complete capture. -/
theorem polls_of_complete (n : ℕ) :
    ∀ {r : RecordingBody}, r.inner.frames = [] → r.inner.ending = .eof →
      r.capture.complete = true → r.polls n = r := by
  induction n with
  | zero => exact fun _ _ _ => rfl
  | succ n ih =>
      intro r hframes hending hcomplete
      have hpoll : r.pollFrame.2 = r := by
        obtain ⟨⟨frames, ending, hint⟩, ⟨bytes, maxBytes, overflowed, complete⟩⟩ := r
        subst hframes hending hcomplete
        rfl
      rw [polls, hpoll]
      exact ih hframes hending hcomplete

/-- A poll of a body that is not at its end records the data of one frame. -/
theorem polls_frame {frame : Frame} {frames : List Frame} {ending : Ending} {hint : Option ℕ}
    {bytes : List UInt8} {maxBytes : ℕ} (hfits : bytes.length ≤ maxBytes) (n : ℕ) :
    polls (n + 1) ⟨⟨frame :: frames, ending, hint⟩, ⟨bytes, maxBytes, false, false⟩⟩ =
      polls n ⟨⟨frames, ending, hint.map (· - frame.bytes.length)⟩,
        ReplayCapture.recordChunk ⟨bytes, maxBytes, false, false⟩ frame.bytes⟩ := by
  cases frame with
  | data chunk => rfl
  | trailers lines =>
      show _ = polls n ⟨_, ReplayCapture.recordChunk _ []⟩
      rw [ReplayCapture.recordChunk_of_le (by rwa [List.length_nil, Nat.add_zero]),
        List.append_nil]
      rfl

/-- The snapshot of a capture that is still recording, after a number of polls. -/
theorem snapshot_polls_recording (ending : Ending) (maxBytes : ℕ) (frames : List Frame) :
    ∀ (hint : Option ℕ) (bytes : List UInt8) (n : ℕ), bytes.length ≤ maxBytes →
      (polls n ⟨⟨frames, ending, hint⟩, ⟨bytes, maxBytes, false, false⟩⟩).capture.snapshot =
        if frames.length < n ∧ ending = .eof ∧
            bytes.length + (frames.flatMap Frame.bytes).length ≤ maxBytes then
          some (bytes ++ frames.flatMap Frame.bytes)
        else none := by
  -- Along the frames: each poll takes one, and the poll after the last sees the end.
  induction frames with
  | nil =>
      intro hint bytes n hfits
      cases n with
      | zero => rfl
      | succ n =>
          cases ending with
          | eof =>
              rw [polls, polls_of_complete n rfl rfl rfl, if_pos ⟨Nat.succ_pos n, rfl, hfits⟩]
              show some bytes = some (bytes ++ [])
              rw [List.append_nil]
          | error e =>
              rw [polls, snapshot_polls_of_overflowed n rfl, if_neg fun h => nomatch h.2.1]
  | cons frame frames ih =>
      intro hint bytes n hfits
      cases n with
      | zero => exact (if_neg fun h => Nat.not_lt_zero _ h.1).symm
      | succ n =>
          rw [polls_frame hfits, List.flatMap_cons, List.length_append, List.length_cons]
          by_cases hover : maxBytes < bytes.length + frame.bytes.length
          · rw [snapshot_polls_of_overflowed n (ReplayCapture.overflowed_recordChunk hover),
              if_neg fun h => by omega]
          · have hle : bytes.length + frame.bytes.length ≤ maxBytes := Nat.not_lt.mp hover
            rw [ReplayCapture.recordChunk_of_le hle, ih _ _ n (by rwa [List.length_append]),
              List.length_append, List.append_assoc]
            refine if_congr ?_ rfl rfl
            rw [Nat.add_lt_add_iff_right, Nat.add_assoc]

/-- **What a capture is worth.**  After any number of polls the snapshot is the data of
the body if the end was reached without an error and the data is within the limit, and
there is none otherwise. -/
theorem snapshot_polls (body : Body) (maxBytes n : ℕ) :
    (polls n ⟨body, .new maxBytes⟩).capture.snapshot =
      if body.frames.length < n ∧ body.ending = .eof ∧ body.data.length ≤ maxBytes then
        some body.data
      else none := by
  rw [ReplayCapture.new, snapshot_polls_recording body.ending maxBytes body.frames body.exact [] n
    (Nat.zero_le _), List.length_nil, Nat.zero_add]
  rfl

end RecordingBody

end Retry
end Noxy
