/-
# Bodies, frame by frame

The bodies of the `http-body` crate, as the middlewares read them: the data in their frames, one
poll, and what is collected of a body that does not fail.
-/

import Noxy.Http.Message

namespace Noxy
namespace Http

/-- `Frame::data_ref`, empty for trailers. -/
def Frame.bytes : Frame → List UInt8
  | .data bytes => bytes
  | .trailers _ => []

namespace Body

/-- The data of a body. -/
def data (body : Body) : List UInt8 := body.frames.flatMap Frame.bytes

/-- `poll_frame`, when it is ready.  A body that has failed is at its end. -/
def pollFrame (body : Body) : Option (Except String Frame) × Body :=
  match body.frames with
  | frame :: frames =>
      (some (.ok frame),
        { body with frames := frames, exact := body.exact.map (· - frame.bytes.length) })
  | [] =>
      match body.ending with
      | .eof => (none, body)
      | .error e => (some (.error e), { body with ending := .eof })

/-- `collect`, and the bytes of what it collected. -/
def collect (body : Body) : Except String (List UInt8) :=
  match body.ending with
  | .eof => .ok body.data
  | .error e => .error e

end Body

theorem data_fullBody (bytes : List UInt8) : (fullBody bytes).data = bytes := by
  unfold fullBody Body.data
  split
  · rename_i hnil
    exact hnil.symm
  · exact List.append_nil bytes

end Http
end Noxy
