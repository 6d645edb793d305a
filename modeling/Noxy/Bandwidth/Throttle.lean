/-
# The throttled body

`src/middleware/bandwidth_throttle.rs`: `ThrottledBody`.

A data frame that comes too early is held back with a timer, and the inner body is not polled
again before the frame has been handed on.  Empty data frames and trailers are handed on at
once.  The inner body is the list of what it answers to its polls, which ends it; a poll reads
the clock several times, and a timer may be reported late but never early.  Times are rational
numbers of seconds; `seconds bytes rate` is the quotient as the arithmetic of the machine has it,
and nothing here depends on it.

`Session` keeps a log of the polls beside the body.  What has been yielded, the frame that is
held and what the inner body has left are together what it had (`Session.poll_items`), and the
body has yielded all of it when it says that it has ended (`Session.Spent`), which no schedule
can put off except by polling before the timer is ready (`Session.poll_work`).
-/

import Mathlib.Algebra.Order.Ring.Rat
import Noxy.Http.Body
import Noxy.Lib.Run

namespace Noxy
namespace BandwidthThrottle

open Http Lib

/-- What the inner body answers to a poll, until it has ended. -/
inductive Polled where
  | pending
  | frame (f : Frame)
  | error (e : String)
  deriving DecidableEq, Repr

/-- A call of `poll_frame`: when it reads the clock first, for `start` or for the timer it
finds, for `elapsed`, for a new timer, and when it returns.  `fires` says whether a timer that
is due is reported. -/
structure Poll where
  now : ℚ
  measured : ℚ
  slept : ℚ
  returned : ℚ
  fires : Bool
  ordered : now ≤ measured ∧ measured ≤ slept ∧ slept ≤ returned

/-- A call that takes no time and is told of a timer that is due. -/
def Poll.at (t : ℚ) : Poll := ⟨t, t, t, t, true, le_rfl, le_rfl, le_rfl⟩

/-- What `poll_frame` returns. -/
inductive Answer where
  | pending
  | frame (f : Frame)
  | error (e : String)
  | done
  deriving DecidableEq, Repr

/-- `ThrottledBody`; a timer is its deadline. -/
structure ThrottledBody where
  inner : List Polled
  bytesPerSecond : ℕ
  bytesDelivered : ℕ
  start : Option ℚ
  pending : Option (Frame × ℚ)

/-- `Sleep::poll`: a timer is not ready before its deadline. -/
def Poll.ready (p : Poll) (deadline now : ℚ) : Bool := p.fires && decide (deadline ≤ now)

theorem Poll.le_of_ready {p : Poll} {deadline now : ℚ} (h : p.ready deadline now = true) :
    deadline ≤ now := by
  rw [ready, Bool.and_eq_true, decide_eq_true_eq] at h
  exact h.2

/-- `BandwidthThrottle`, whose `new` asserts that the rate is not zero. -/
structure Layer where
  bytesPerSecond : ℕ
  pos : 0 < bytesPerSecond

variable (seconds : ℕ → ℕ → ℚ)

namespace ThrottledBody

/-- `ThrottledBody::new`. -/
def new (inner : List Polled) (bytesPerSecond : ℕ) : ThrottledBody :=
  ⟨inner, bytesPerSecond, 0, none, none⟩

/-- The body with `size` more bytes on its account. -/
def charge (b : ThrottledBody) (size : ℕ) (p : Poll) : ThrottledBody :=
  { b with start := some (b.start.getD p.now), bytesDelivered := b.bytesDelivered + size }

/-- The time since the start in which the data on the account is due. -/
def expected (b : ThrottledBody) : ℚ := seconds b.bytesDelivered b.bytesPerSecond

/-- `start.elapsed()`. -/
def elapsed (b : ThrottledBody) (p : Poll) : ℚ := max (p.measured - b.start.getD p.now) 0

/-- The deadline of a new timer. -/
def deadline (b : ThrottledBody) (p : Poll) : ℚ := p.slept + (b.expected seconds - b.elapsed p)

/-- `poll_frame`, with a frame of the inner body. -/
def throttle (b : ThrottledBody) (frame : Frame) (p : Poll) : Answer × ThrottledBody :=
  let size := frame.bytes.length
  if size = 0 then (.frame frame, b)
  else
    let b := b.charge size p
    if b.expected seconds ≤ b.elapsed p then (.frame frame, b)
    else if p.ready (b.deadline seconds p) p.returned then (.frame frame, b)
    else (.pending, { b with pending := some (frame, b.deadline seconds p) })

/-- `poll_frame`. -/
def pollFrame (b : ThrottledBody) (p : Poll) : Answer × ThrottledBody :=
  match b.pending with
  | some (frame, deadline) =>
      if p.ready deadline p.now then (.frame frame, { b with pending := none }) else (.pending, b)
  | none =>
      match b.inner with
      | [] => (.done, b)
      | .pending :: inner => (.pending, { b with inner := inner })
      | .error e :: inner => (.error e, { b with inner := inner })
      | .frame frame :: inner => { b with inner := inner }.throttle seconds frame p

/-- What a poll takes from the inner body. -/
def taken (b : ThrottledBody) : Option Polled :=
  match b.pending with
  | some _ => none
  | none => b.inner.head?

/-- Whether a frame of `size` bytes that the inner body has given is handed on by the poll. -/
def Due (b : ThrottledBody) (size : ℕ) (p : Poll) : Prop :=
  (b.charge size p).expected seconds ≤ (b.charge size p).elapsed p ∨
    p.ready ((b.charge size p).deadline seconds p) p.returned = true

/-- **What a poll can do.** -/
inductive Move (b : ThrottledBody) (p : Poll) : Answer → ThrottledBody → Prop
  | wait {frame : Frame} {deadline : ℚ} (held : b.pending = some (frame, deadline)) :
      Move b p .pending b
  | release {frame : Frame} {deadline : ℚ} (held : b.pending = some (frame, deadline))
      (due : deadline ≤ p.now) : Move b p (.frame frame) { b with pending := none }
  | done (free : b.pending = none) (ended : b.inner = []) : Move b p .done b
  | sleep {inner : List Polled} (free : b.pending = none) (next : b.inner = .pending :: inner) :
      Move b p .pending { b with inner := inner }
  | fail {e : String} {inner : List Polled} (free : b.pending = none)
      (next : b.inner = .error e :: inner) : Move b p (.error e) { b with inner := inner }
  | pass {frame : Frame} {inner : List Polled} (free : b.pending = none)
      (next : b.inner = .frame frame :: inner) (empty : frame.bytes.length = 0) :
      Move b p (.frame frame) { b with inner := inner }
  | deliver {frame : Frame} {inner : List Polled} (free : b.pending = none)
      (next : b.inner = .frame frame :: inner) (size : frame.bytes.length ≠ 0)
      (due : b.Due seconds frame.bytes.length p) :
      Move b p (.frame frame) { b.charge frame.bytes.length p with inner := inner }
  | hold {frame : Frame} {inner : List Polled} (free : b.pending = none)
      (next : b.inner = .frame frame :: inner) (size : frame.bytes.length ≠ 0)
      (late : ¬ b.Due seconds frame.bytes.length p) :
      Move b p .pending
        { b.charge frame.bytes.length p with
          inner := inner
          pending := some (frame, (b.charge frame.bytes.length p).deadline seconds p) }

theorem pollFrame_move (b : ThrottledBody) (p : Poll) :
    ∃ a b', b.pollFrame seconds p = (a, b') ∧ b.Move seconds p a b' := by
  refine ⟨(b.pollFrame seconds p).1, (b.pollFrame seconds p).2, rfl, ?_⟩
  unfold pollFrame
  split
  · rename_i frame deadline held
    split
    · rename_i hready
      exact .release held (Poll.le_of_ready hready)
    · exact .wait held
  · rename_i free
    split
    · rename_i ended
      exact .done free ended
    · rename_i next
      exact .sleep free next
    · rename_i next
      exact .fail free next
    · rename_i frame inner next
      unfold throttle
      dsimp only
      split
      · rename_i empty
        exact .pass free next empty
      · rename_i size
        split
        · rename_i due
          exact .deliver free next size (.inl due)
        · rename_i short
          split
          · rename_i hready
            exact .deliver free next size (.inr hready)
          · rename_i hready
            exact .hold free next size (not_or_intro short hready)

end ThrottledBody

/-! ### Frames -/

/-- The frames and errors of an inner body. -/
def items : List Polled → List (Except String Frame)
  | [] => []
  | .pending :: inner => items inner
  | .frame f :: inner => .ok f :: items inner
  | .error e :: inner => .error e :: items inner

/-- A poll that was made, with what it took from the inner body and what it answered. -/
structure Entry where
  poll : Poll
  took : Option Polled
  answer : Answer

/-- The frame or error of an answer. -/
def Answer.item : Answer → Option (Except String Frame)
  | .frame f => some (.ok f)
  | .error e => some (.error e)
  | _ => none

/-- The data of an answer. -/
def Answer.bytes : Answer → List UInt8
  | .frame f => f.bytes
  | _ => []

/-- The frames and errors that have been yielded. -/
def yielded (log : List Entry) : List (Except String Frame) := log.filterMap fun e => e.answer.item

/-- The data that has been yielded. -/
def dataYielded (log : List Entry) : List UInt8 := log.flatMap fun e => e.answer.bytes

theorem yielded_concat (log : List Entry) (e : Entry) :
    yielded (log ++ [e]) = yielded log ++ e.answer.item.toList := by
  rw [yielded, List.filterMap_append]
  cases h : e.answer.item <;> simp [h, yielded]

theorem dataYielded_concat (log : List Entry) (e : Entry) :
    dataYielded (log ++ [e]) = dataYielded log ++ e.answer.bytes := by
  simp [dataYielded]

/-- The poll took a data frame. -/
def Entry.tookData (e : Entry) : Bool :=
  match e.took with
  | some (.frame (.data _)) => true
  | _ => false

/-- When the first data frame was obtained. -/
def firstData (log : List Entry) : Option ℚ := (log.find? Entry.tookData).map fun e => e.poll.now

/-- The poll found a timer that was not ready. -/
def Entry.early (e : Entry) : Bool := decide (e.took = none) && decide (e.answer = .pending)

/-- A body, and the polls so far. -/
structure Session where
  body : ThrottledBody
  log : List Entry

namespace Session

/-- A new body. -/
def start (inner : List Polled) (bytesPerSecond : ℕ) : Session := ⟨.new inner bytesPerSecond, []⟩

/-- What a poll adds to the log. -/
def entry (s : Session) (p : Poll) : Entry := ⟨p, s.body.taken, (s.body.pollFrame seconds p).1⟩

/-- The session after a poll. -/
def poll (s : Session) (p : Poll) : Session :=
  ⟨(s.body.pollFrame seconds p).2, s.log ++ [s.entry seconds p]⟩

variable {seconds}

/-- What is still to come: the frame that is held, and what the inner body has left. -/
def left (s : Session) : List (Except String Frame) :=
  (s.body.pending.map fun held => .ok held.1).toList ++ items s.body.inner

/-- The polls that are needed at most, those apart that come too early. -/
def work (s : Session) : ℕ := 2 * s.body.inner.length + s.body.pending.toList.length

theorem poll_eq {s : Session} {p : Poll} {a : Answer} {b : ThrottledBody}
    (h : s.body.pollFrame seconds p = (a, b)) :
    s.poll seconds p = ⟨b, s.log ++ [⟨p, s.body.taken, a⟩]⟩ := by
  rw [poll, entry, h]

/-- **Nothing is lost, repeated or put in another place** by a poll. -/
theorem poll_items (s : Session) (p : Poll) :
    yielded (s.poll seconds p).log ++ (s.poll seconds p).left = yielded s.log ++ s.left := by
  obtain ⟨a, b, hpoll, hmove⟩ := s.body.pollFrame_move seconds p
  rw [poll_eq hpoll, yielded_concat, List.append_assoc]
  congr 1
  unfold left
  cases hmove with
  | wait held => rfl
  | release held _ => simp [held, Answer.item]
  | done free ended => rfl
  | sleep free next => simp [free, next, Answer.item, items]
  | fail free next => simp [free, next, Answer.item, items]
  | pass free next _ => simp [free, next, Answer.item, items]
  | deliver free next _ _ => simp [free, next, Answer.item, items, ThrottledBody.charge]
  | hold free next _ _ => simp [free, next, Answer.item, items]

/-- The body has said that it has ended. -/
def Ended (s : Session) : Prop := ∃ e ∈ s.log, e.answer = .done

/-- A body that has ended has nothing left, and polling does not change that. -/
def Spent (s : Session) : Prop := s.Ended → s.body.pending = none ∧ s.body.inner = []

theorem Spent.poll {s : Session} (h : s.Spent) (p : Poll) : (s.poll seconds p).Spent := by
  obtain ⟨a, b, hpoll, hmove⟩ := s.body.pollFrame_move seconds p
  rw [poll_eq hpoll]
  rintro ⟨e, he, hdone⟩
  rcases List.mem_append.mp he with he | he
  · -- it had ended before: then this poll says so again
    obtain ⟨free, ended⟩ := h ⟨e, he, hdone⟩
    cases hmove with
    | wait held => simp [free] at held
    | release held _ => simp [free] at held
    | done _ _ => exact ⟨free, ended⟩
    | sleep _ next => simp [ended] at next
    | fail _ next => simp [ended] at next
    | pass _ next _ => simp [ended] at next
    | deliver _ next _ _ => simp [ended] at next
    | hold _ next _ _ => simp [ended] at next
  · obtain rfl : e = ⟨p, s.body.taken, a⟩ := List.mem_singleton.mp he
    cases hmove with
    | done free ended => exact ⟨free, ended⟩
    | _ => cases hdone

/-- **Every poll does a part of the work**, unless it comes too early or the body has ended. -/
theorem poll_work {s : Session} {p : Poll} (hdone : (s.entry seconds p).answer ≠ .done) :
    (s.poll seconds p).work + (if (s.entry seconds p).early then 0 else 1) ≤ s.work := by
  obtain ⟨a, b, hpoll, hmove⟩ := s.body.pollFrame_move seconds p
  rw [poll_eq hpoll]
  rw [entry, hpoll] at hdone ⊢
  unfold work
  cases hmove with
  | wait held =>
      have hearly : Entry.early ⟨p, s.body.taken, .pending⟩ = true := by
        simp [Entry.early, ThrottledBody.taken, held]
      rw [if_pos hearly]
      exact Nat.le_refl _
  | release held _ =>
      rw [held, Option.toList_some, List.length_singleton]
      dsimp only [Option.toList_none, List.length_nil]
      split <;> omega
  | done _ _ => exact absurd rfl hdone
  | sleep _ next =>
      dsimp only
      rw [next, List.length_cons]
      split <;> omega
  | fail _ next =>
      dsimp only
      rw [next, List.length_cons]
      split <;> omega
  | pass _ next _ =>
      dsimp only
      rw [next, List.length_cons]
      split <;> omega
  | deliver _ next _ _ =>
      dsimp only [ThrottledBody.charge]
      rw [next, List.length_cons]
      split <;> omega
  | hold _ next _ _ =>
      dsimp only
      rw [next, List.length_cons, Option.toList_some, List.length_singleton]
      split <;> omega

/-- The polls that did not come too early. -/
def timely (s : Session) : ℕ := s.log.countP fun e => !e.early

theorem timely_poll (s : Session) (p : Poll) :
    (s.poll seconds p).timely = s.timely + if (s.entry seconds p).early then 0 else 1 := by
  unfold timely poll
  rw [List.countP_append, List.countP_singleton]
  cases (s.entry seconds p).early <;> rfl

/-- The work that is left pays for the polls to come. -/
def Worked (total : ℕ) (s : Session) : Prop := s.Ended ∨ s.timely + s.work ≤ total

theorem Worked.poll {total : ℕ} {s : Session} (h : s.Worked total) (p : Poll) :
    (s.poll seconds p).Worked total := by
  by_cases hdone : (s.entry seconds p).answer = .done
  · exact .inl ⟨s.entry seconds p, List.mem_append_right _ (List.mem_singleton_self _), hdone⟩
  · rcases h with ⟨e, he, hended⟩ | h
    · exact .inl ⟨e, List.mem_append_left _ he, hended⟩
    · have hwork := poll_work hdone
      refine .inr ?_
      rw [timely_poll]
      omega

end Session

end BandwidthThrottle
end Noxy
