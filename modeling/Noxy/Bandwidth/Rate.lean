/-
# The rate of the throttled body

`src/middleware/bandwidth_throttle.rs`: `ThrottledBody::poll_frame`.

The account of a body is the data that it has taken from the inner body, and it is opened when
the first data has been obtained.  `Session.Paced` is the invariant: what has been yielded is
within the rate, and the frame that is held waits until all the data on the account is due.
With what `Throttle` says of the frames (`lossless_run`) it is `throttled_body_exact`.
-/

import Mathlib.Data.List.Chain
import Mathlib.Tactic.Linarith
import Noxy.Bandwidth.Throttle

namespace Noxy
namespace BandwidthThrottle

open Http Lib

/-- The quotient without rounding. -/
def exactly (bytes rate : ℕ) : ℚ := bytes / rate

theorem firstData_concat (log : List Entry) (e : Entry) :
    firstData (log ++ [e]) =
      (firstData log).or (if e.tookData then some e.poll.now else none) := by
  unfold firstData
  rw [List.find?_append, Option.map_or]
  cases h : e.tookData <;> simp [h]

namespace ThrottledBody

variable {b : ThrottledBody} {p : Poll} {started : ℚ}

theorem rate_mul_expected (h : 0 < b.bytesPerSecond) :
    (b.bytesPerSecond : ℚ) * b.expected exactly = b.bytesDelivered := by
  have hne : (b.bytesPerSecond : ℚ) ≠ 0 := Nat.cast_ne_zero.mpr h.ne'
  rw [expected, exactly, mul_div_cancel₀ _ hne]

/-- At its deadline the data on the account is due. -/
theorem delivered_le_deadline (h : 0 < b.bytesPerSecond) (hstart : b.start = some started)
    (hnow : started ≤ p.now) :
    (b.bytesDelivered : ℚ) ≤ b.bytesPerSecond * (b.deadline exactly p - started) := by
  obtain ⟨hmeasured, hslept, -⟩ := p.ordered
  have helapsed : b.elapsed p = p.measured - started := by
    rw [elapsed, hstart, Option.getD_some]
    exact max_eq_left (by linarith)
  have hwait : b.expected exactly ≤ b.deadline exactly p - started := by
    rw [deadline, helapsed]
    linarith
  calc (b.bytesDelivered : ℚ) = b.bytesPerSecond * b.expected exactly := (rate_mul_expected h).symm
    _ ≤ b.bytesPerSecond * (b.deadline exactly p - started) :=
        mul_le_mul_of_nonneg_left hwait (Nat.cast_nonneg _)

/-- The same when the time that has passed is long enough. -/
theorem delivered_le_elapsed (h : 0 < b.bytesPerSecond) (hstart : b.start = some started)
    (hnow : started ≤ p.now) (hdue : b.expected exactly ≤ b.elapsed p) :
    (b.bytesDelivered : ℚ) ≤ b.bytesPerSecond * (p.returned - started) := by
  obtain ⟨hmeasured, hslept, hreturned⟩ := p.ordered
  have hwait : b.expected exactly ≤ p.returned - started := by
    rw [elapsed, hstart, Option.getD_some, max_eq_left (by linarith)] at hdue
    linarith
  calc (b.bytesDelivered : ℚ) = b.bytesPerSecond * b.expected exactly := (rate_mul_expected h).symm
    _ ≤ b.bytesPerSecond * (p.returned - started) :=
        mul_le_mul_of_nonneg_left hwait (Nat.cast_nonneg _)

/-- The size of the frame that is held. -/
def heldSize (b : ThrottledBody) : ℕ := (b.pending.map fun held => held.1.bytes.length).getD 0

end ThrottledBody

/-- **The pace of a body** at the time `t`: the account is the data yielded and held, it was
opened when data had been obtained, what has been yielded is within the rate, and so will be
what is held when its timer is ready. -/
structure Session.Paced (rate : ℕ) (t : ℚ) (s : Session) : Prop where
  rate_eq : s.body.bytesPerSecond = rate
  account : s.body.bytesDelivered = (dataYielded s.log).length + s.body.heldSize
  unopened : s.body.start = none → s.body.bytesDelivered = 0
  opened : ∀ started, s.body.start = some started →
    started ≤ t ∧ ∃ first, firstData s.log = some first ∧ first ≤ started
  within : ∀ first, firstData s.log = some first →
    first ≤ t ∧ ((dataYielded s.log).length : ℚ) ≤ rate * (t - first)
  held : ∀ frame deadline, s.body.pending = some (frame, deadline) → ∃ started,
    s.body.start = some started ∧ (s.body.bytesDelivered : ℚ) ≤ rate * (deadline - started)

namespace Session.Paced

variable {rate : ℕ} {t : ℚ} {s : Session} {p : Poll}

/-- Nothing has been yielded before a data frame has been obtained. -/
theorem yielded_eq_zero (h : s.Paced rate t) (hfirst : firstData s.log = none) :
    (dataYielded s.log).length = 0 := by
  have hstart : s.body.start = none := by
    cases hs : s.body.start with
    | none => rfl
    | some started =>
        obtain ⟨-, first, hsome, -⟩ := h.opened started hs
        rw [hfirst] at hsome
        cases hsome
  have haccount := h.account
  rw [h.unopened hstart] at haccount
  omega

/-- What has been yielded stays within the rate while time passes. -/
theorem within_concat (h : s.Paced rate t) (ht : t ≤ p.now) {took : Option Polled} {a : Answer}
    {first : ℚ} (hfirst : firstData (s.log ++ [⟨p, took, a⟩]) = some first) :
    first ≤ p.now ∧ ((dataYielded s.log).length : ℚ) ≤ rate * (p.returned - first) := by
  obtain ⟨hmeasured, hslept, hreturned⟩ := p.ordered
  have hrate : (0 : ℚ) ≤ rate := Nat.cast_nonneg _
  rw [firstData_concat] at hfirst
  cases hlog : firstData s.log with
  | some first' =>
      rw [hlog] at hfirst
      obtain rfl : first' = first := Option.some.inj hfirst
      obtain ⟨hle, hwithin⟩ := h.within first' hlog
      refine ⟨hle.trans ht, hwithin.trans (mul_le_mul_of_nonneg_left ?_ hrate)⟩
      linarith
  | none =>
      rw [hlog, Option.none_or] at hfirst
      split at hfirst
      · obtain rfl : p.now = first := Option.some.inj hfirst
        rw [h.yielded_eq_zero hlog, Nat.cast_zero]
        exact ⟨le_rfl, mul_nonneg hrate (by linarith)⟩
      · cases hfirst

/-- A poll that leaves the account alone and yields no data. -/
theorem quiet (h : s.Paced rate t) (ht : t ≤ p.now) (inner : List Polled) {took : Option Polled}
    {a : Answer} (hanswer : a.bytes = []) :
    Paced rate p.returned ⟨{ s.body with inner := inner }, s.log ++ [⟨p, took, a⟩]⟩ := by
  obtain ⟨hmeasured, hslept, hreturned⟩ := p.ordered
  have hyielded : dataYielded (s.log ++ [⟨p, took, a⟩]) = dataYielded s.log := by
    rw [dataYielded_concat, hanswer, List.append_nil]
  refine ⟨h.rate_eq, ?_, h.unopened, ?_, ?_, h.held⟩
  · rw [hyielded]
    exact h.account
  · intro started hs
    obtain ⟨hle, first, hfirst, hle'⟩ := h.opened started hs
    refine ⟨by linarith, first, ?_, hle'⟩
    rw [firstData_concat, hfirst, Option.some_or]
  · intro first hfirst
    obtain ⟨hle, hwithin⟩ := h.within_concat ht hfirst
    rw [hyielded]
    exact ⟨by linarith, hwithin⟩

/-- When the account of a body is opened, data has been obtained. -/
theorem charged (h : s.Paced rate t) (ht : t ≤ p.now) {took : Option Polled} {a : Answer}
    (hdata : Entry.tookData ⟨p, took, a⟩ = true) :
    s.body.start.getD p.now ≤ p.now ∧ ∃ first, firstData (s.log ++ [⟨p, took, a⟩]) = some first ∧
      first ≤ s.body.start.getD p.now := by
  cases hs : s.body.start with
  | some started =>
      obtain ⟨hle, first, hfirst, hle'⟩ := h.opened started hs
      refine ⟨hle.trans ht, first, ?_, hle'⟩
      rw [firstData_concat, hfirst, Option.some_or]
  | none =>
      refine ⟨le_rfl, ?_⟩
      obtain ⟨first, hfirst⟩ : ∃ first, firstData (s.log ++ [⟨p, took, a⟩]) = some first := by
        rw [firstData_concat, if_pos hdata]
        cases firstData s.log <;> simp
      exact ⟨first, hfirst, (h.within_concat ht hfirst).1⟩

theorem tookData_of_next {frame : Frame} {inner : List Polled} (free : s.body.pending = none)
    (next : s.body.inner = .frame frame :: inner) (size : frame.bytes.length ≠ 0) (a : Answer) :
    Entry.tookData ⟨p, s.body.taken, a⟩ = true := by
  rw [Entry.tookData, ThrottledBody.taken, free, next]
  cases frame with
  | data bytes => rfl
  | trailers lines => exact absurd rfl size

/-- What is within the rate between two times is so between an earlier and a later one. -/
theorem within_wider {n : ℕ} {started first due later : ℚ} (h : (n : ℚ) ≤ rate * (due - started))
    (hfirst : first ≤ started) (hlater : due ≤ later) : (n : ℚ) ≤ rate * (later - first) := by
  refine h.trans (mul_le_mul_of_nonneg_left ?_ (Nat.cast_nonneg _))
  linarith

/-- A poll that yields the frame that was held. -/
theorem release (h : s.Paced rate t) (ht : t ≤ p.now) {frame : Frame} {deadline : ℚ}
    (held : s.body.pending = some (frame, deadline)) (due : deadline ≤ p.now) :
    Paced rate p.returned
      ⟨{ s.body with pending := none }, s.log ++ [⟨p, s.body.taken, .frame frame⟩]⟩ := by
  obtain ⟨hmeasured, hslept, hreturned⟩ := p.ordered
  obtain ⟨started, hstart, hdue⟩ := h.held frame deadline held
  obtain ⟨hle, first, hfirst, hle'⟩ := h.opened started hstart
  have haccount : s.body.bytesDelivered =
      (dataYielded (s.log ++ [⟨p, s.body.taken, .frame frame⟩])).length := by
    rw [dataYielded_concat, List.length_append, h.account, ThrottledBody.heldSize, held]
    rfl
  have hnow : firstData (s.log ++ [⟨p, s.body.taken, .frame frame⟩]) = some first := by
    rw [firstData_concat, hfirst, Option.some_or]
  refine ⟨h.rate_eq, haccount, h.unopened, ?_, ?_, fun _ _ hnone => (by cases hnone)⟩
  · rintro started' hstart'
    obtain rfl : started = started' := Option.some.inj (hstart.symm.trans hstart')
    exact ⟨by linarith, first, hnow, hle'⟩
  · intro first' hfirst'
    obtain rfl : first = first' := Option.some.inj (hnow.symm.trans hfirst')
    refine ⟨by linarith, ?_⟩
    rw [← haccount]
    exact within_wider hdue hle' (by linarith)

theorem charge_pos (h : s.Paced rate t) (hrate : 0 < rate) (size : ℕ) :
    0 < (s.body.charge size p).bytesPerSecond := by
  rw [← h.rate_eq] at hrate
  exact hrate

/-- A frame that is due when it is charged is within the rate. -/
theorem charge_within (h : s.Paced rate t) (hrate : 0 < rate) {size : ℕ}
    (hstarted : s.body.start.getD p.now ≤ p.now) (due : s.body.Due exactly size p) :
    ((s.body.bytesDelivered + size : ℕ) : ℚ) ≤
      rate * (p.returned - s.body.start.getD p.now) := by
  have hpos := h.charge_pos (p := p) hrate size
  rw [← h.rate_eq]
  rcases due with due | due
  · exact ThrottledBody.delivered_le_elapsed hpos rfl hstarted due
  · refine (ThrottledBody.delivered_le_deadline hpos rfl hstarted).trans ?_
    exact mul_le_mul_of_nonneg_left (sub_le_sub_right (Poll.le_of_ready due) _)
      (Nat.cast_nonneg _)

/-- A poll that charges a frame and yields it. -/
theorem deliver (h : s.Paced rate t) (hrate : 0 < rate) (ht : t ≤ p.now) {frame : Frame}
    {inner : List Polled} (free : s.body.pending = none)
    (next : s.body.inner = .frame frame :: inner) (size : frame.bytes.length ≠ 0)
    (due : s.body.Due exactly frame.bytes.length p) :
    Paced rate p.returned ⟨{ s.body.charge frame.bytes.length p with inner := inner },
      s.log ++ [⟨p, s.body.taken, .frame frame⟩]⟩ := by
  obtain ⟨hmeasured, hslept, hreturned⟩ := p.ordered
  obtain ⟨hstarted, first, hfirst, hle⟩ := h.charged ht
    (tookData_of_next free next size (.frame frame))
  have haccount : s.body.bytesDelivered + frame.bytes.length =
      (dataYielded (s.log ++ [⟨p, s.body.taken, .frame frame⟩])).length := by
    rw [dataYielded_concat, List.length_append, h.account, ThrottledBody.heldSize, free]
    rfl
  refine ⟨h.rate_eq, ?_, fun hnone => (by cases hnone), ?_, ?_, ?_⟩
  · dsimp only [ThrottledBody.charge]
    rw [ThrottledBody.heldSize, free]
    exact haccount
  · rintro started hs
    cases hs
    exact ⟨by linarith, first, hfirst, hle⟩
  · intro first' hfirst'
    obtain rfl : first = first' := Option.some.inj (hfirst.symm.trans hfirst')
    refine ⟨by linarith, ?_⟩
    rw [← haccount]
    exact within_wider (h.charge_within hrate hstarted due) hle le_rfl
  · intro frame' deadline hheld
    dsimp only [ThrottledBody.charge] at hheld
    rw [free] at hheld
    cases hheld

/-- A poll that charges a frame and holds it. -/
theorem hold (h : s.Paced rate t) (hrate : 0 < rate) (ht : t ≤ p.now) {frame : Frame}
    {inner : List Polled} (free : s.body.pending = none)
    (next : s.body.inner = .frame frame :: inner) (size : frame.bytes.length ≠ 0) :
    Paced rate p.returned
      ⟨{ s.body.charge frame.bytes.length p with
          inner := inner
          pending := some (frame, (s.body.charge frame.bytes.length p).deadline exactly p) },
        s.log ++ [⟨p, s.body.taken, .pending⟩]⟩ := by
  obtain ⟨hmeasured, hslept, hreturned⟩ := p.ordered
  obtain ⟨hstarted, first, hfirst, hle⟩ := h.charged ht
    (tookData_of_next free next size .pending)
  have hyielded : dataYielded (s.log ++ [⟨p, s.body.taken, .pending⟩]) = dataYielded s.log := by
    rw [dataYielded_concat]
    exact List.append_nil _
  refine ⟨h.rate_eq, ?_, fun hnone => (by cases hnone), ?_, ?_, ?_⟩
  · have haccount := h.account
    rw [ThrottledBody.heldSize, free] at haccount
    rw [hyielded]
    exact congrArg (· + frame.bytes.length) haccount
  · rintro started hs
    cases hs
    exact ⟨by linarith, first, hfirst, hle⟩
  · intro first' hfirst'
    obtain ⟨hle', hwithin⟩ := h.within_concat ht hfirst'
    rw [hyielded]
    exact ⟨by linarith, hwithin⟩
  · intro frame' deadline hheld
    cases hheld
    refine ⟨_, rfl, ?_⟩
    rw [← h.rate_eq]
    exact ThrottledBody.delivered_le_deadline
      (h.charge_pos (p := p) hrate frame.bytes.length) rfl hstarted

/-- **A poll keeps the pace.** -/
theorem poll (h : s.Paced rate t) (hrate : 0 < rate) (ht : t ≤ p.now) :
    (s.poll exactly p).Paced rate p.returned := by
  obtain ⟨a, b, hpoll, hmove⟩ := s.body.pollFrame_move exactly p
  rw [poll_eq hpoll]
  cases hmove with
  | wait _ => exact h.quiet ht s.body.inner rfl
  | done _ _ => exact h.quiet ht s.body.inner rfl
  | sleep _ _ => exact h.quiet ht _ rfl
  | fail _ _ => exact h.quiet ht _ rfl
  | pass _ _ empty => exact h.quiet ht _ (List.eq_nil_of_length_eq_zero empty)
  | release held due => exact h.release ht held due
  | deliver free next size due => exact h.deliver hrate ht free next size due
  | hold free next size _ => exact h.hold hrate ht free next size

/-- A data frame that is yielded has been obtained. -/
theorem exists_firstData (h : s.Paced rate t) {bytes : List UInt8}
    (hyield : (s.entry exactly p).answer = .frame (.data bytes)) :
    ∃ first, firstData (s.poll exactly p).log = some first := by
  obtain ⟨a, b, hpoll, hmove⟩ := s.body.pollFrame_move exactly p
  have hanswer : a = .frame (.data bytes) := by
    rw [entry, hpoll] at hyield
    exact hyield
  rw [poll_eq hpoll]
  dsimp only
  rw [firstData_concat]
  cases hmove with
  | release held _ =>
      obtain ⟨started, hstart, -⟩ := h.held _ _ held
      obtain ⟨-, first, hfirst, -⟩ := h.opened started hstart
      exact ⟨first, by rw [hfirst, Option.some_or]⟩
  | pass free next _ =>
      cases hanswer
      rw [Entry.tookData, ThrottledBody.taken, free, next]
      cases firstData s.log <;> simp
  | deliver free next size _ =>
      rw [if_pos (tookData_of_next free next size _)]
      cases firstData s.log <;> simp
  | _ => cases hanswer

theorem start (rate : ℕ) (inner : List Polled) (t : ℚ) :
    (Session.start inner rate).Paced rate t where
  rate_eq := rfl
  account := rfl
  unopened _ := rfl
  opened _ h := by cases h
  within _ h := by cases h
  held _ _ h := by cases h

end Session.Paced

/-- The calls come one after the other. -/
def Clock (polls : List Poll) : Prop := polls.IsChain fun p q => p.returned ≤ q.now

/-- A new body after the polls. -/
def served (seconds : ℕ → ℕ → ℚ) (inner : List Polled) (rate : ℕ) (polls : List Poll) : Session :=
  run (Session.poll seconds) (.start inner rate) polls

/-- **A run is lossless and ordered**, whatever the rate and however its quotients are rounded. -/
theorem lossless_run (seconds : ℕ → ℕ → ℚ) (inner : List Polled) (rate : ℕ) (polls : List Poll) :
    yielded (served seconds inner rate polls).log <+: items inner ∧
      ((served seconds inner rate polls).Ended →
        yielded (served seconds inner rate polls).log = items inner) ∧
      (2 * inner.length < (served seconds inner rate polls).timely →
        (served seconds inner rate polls).Ended) := by
  have hitems : yielded (served seconds inner rate polls).log ++
      (served seconds inner rate polls).left = items inner :=
    run_of_kept (J := fun s : Session => yielded s.log ++ s.left = items inner)
      (fun p _ s h => (s.poll_items p).trans h) rfl
  have hspent : (served seconds inner rate polls).Spent := by
    refine run_of_kept (J := Session.Spent) (fun p _ s h => h.poll p) ?_
    rintro ⟨e, he, -⟩
    cases he
  have hworked : (served seconds inner rate polls).Worked (2 * inner.length) :=
    run_of_kept (J := Session.Worked (2 * inner.length)) (fun p _ s h => h.poll p)
      (.inr (by simp [Session.timely, Session.work, Session.start, ThrottledBody.new]))
  refine ⟨⟨_, hitems⟩, fun hended => ?_, fun htimely => ?_⟩
  · obtain ⟨free, ended⟩ := hspent hended
    rw [Session.left, free, ended] at hitems
    exact (List.append_nil _).symm.trans hitems
  · exact hworked.resolve_right (by omega)

/-- **A run keeps the pace** up to its next poll. -/
theorem paced_run {rate : ℕ} (hrate : 0 < rate) (inner : List Polled) {polls : List Poll} {p : Poll}
    (hclock : Clock (polls ++ [p])) :
    ∃ t ≤ p.now, (served exactly inner rate polls).Paced rate t := by
  induction polls using List.reverseRecOn generalizing p with
  | nil => exact ⟨p.now, le_rfl, .start rate inner p.now⟩
  | append_singleton polls q ih =>
      obtain ⟨hbefore, -, hlast⟩ := List.isChain_append.mp hclock
      obtain ⟨t, ht, hpaced⟩ := ih hbefore
      rw [served, run_concat]
      exact ⟨q.returned, hlast q (by simp) p (by simp), hpaced.poll hrate ht⟩

/-- **The throttled body is lossless, ordered and within its rate.**  Whatever the inner body
answers and however the body is polled: what it yields is in its order what the inner body
gives, all of it when it says that it has ended, which it does when it has been polled more
than twice as often as the inner body answers, polls apart that come before the timer is
ready.  That holds with any rounding of the quotients.  With exact ones, when a data frame is
yielded, the data so far is at most what the rate allows for the time since the first data frame
was obtained. -/
theorem throttled_body_exact {rate : ℕ} (hrate : 0 < rate) (inner : List Polled)
    {polls : List Poll} (hclock : Clock polls) :
    (∀ seconds, yielded (served seconds inner rate polls).log <+: items inner ∧
      ((served seconds inner rate polls).Ended →
        yielded (served seconds inner rate polls).log = items inner) ∧
      (2 * inner.length < (served seconds inner rate polls).timely →
        (served seconds inner rate polls).Ended)) ∧
      ∀ before p after, polls = before ++ p :: after → ∀ bytes,
        ((served exactly inner rate before).entry exactly p).answer = .frame (.data bytes) →
          ∃ first, firstData (served exactly inner rate (before ++ [p])).log = some first ∧
            ((dataYielded (served exactly inner rate (before ++ [p])).log).length : ℚ) ≤
              rate * (p.returned - first) := by
  refine ⟨fun seconds => lossless_run seconds inner rate polls, ?_⟩
  rintro before p after rfl bytes hyield
  have hprefix : Clock (before ++ [p]) := by
    rw [List.append_cons] at hclock
    exact (List.isChain_append.mp hclock).1
  obtain ⟨t, ht, hpaced⟩ := paced_run hrate inner hprefix
  obtain ⟨first, hfirst⟩ := hpaced.exists_firstData hyield
  rw [served, run_concat]
  exact ⟨first, hfirst, ((hpaced.poll hrate ht).within first hfirst).2⟩

/-- A body of two data frames. -/
def twoFrames : List Polled := [.frame (.data [1, 2]), .pending, .frame (.data [3, 4])]

/-- Polls at every second. -/
def everySecond : List Poll := [.at 0, .at 1, .at 2, .at 3, .at 4, .at 5, .at 6]

/-- At two bytes a second, polled at every second, the two frames are yielded, and the first of
them within the rate. -/
theorem throttled_body_exact_twoFrames :
    0 < 2 ∧ Clock everySecond ∧
      yielded (served exactly twoFrames 2 everySecond).log = items twoFrames ∧
      ∃ first, firstData (served exactly twoFrames 2 [.at 0, .at 1]).log = some first ∧
        ((dataYielded (served exactly twoFrames 2 [.at 0, .at 1]).log).length : ℚ) ≤
          (2 : ℕ) * (1 - first) := by
  have hclock : Clock everySecond := by
    unfold Clock everySecond
    decide +kernel
  obtain ⟨hlossless, hpace⟩ := throttled_body_exact two_pos twoFrames hclock
  obtain ⟨-, hall, hended⟩ := hlossless exactly
  refine ⟨two_pos, hclock, hall (hended (by decide +kernel)), ?_⟩
  exact hpace [.at 0] (.at 1) _ rfl [1, 2] (by decide +kernel)

end BandwidthThrottle
end Noxy
