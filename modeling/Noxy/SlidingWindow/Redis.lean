/-
# The script of the Redis sliding window

`src/middleware/sliding_window.rs`: `SLIDING_WINDOW_LUA`, with the arguments that
`RedisSlidingWindowStore` passes to it.  A key's window is a sorted set: the score of a
member is the millisecond at which its request is let through, and the member is a random
name.  The script removes the scores at or below the cutoff wherever they are, where the
deque of `Noxy.SlidingWindow.Deque` pops from its front only, and it lets the key expire.

The scores are the deque, in some order (`Tracks`): removing by score is draining, since
the deque is sorted (`drain_eq_filter`), the lowest score is its front
(`min?_eq_head?`), and a key that has expired holds nothing inside the window
(`Tracks.scores_elapse`).  So the script answers what `takeWindow` does and leaves the
deque that `takeWindow` leaves (`Tracks.step`).
-/

import Noxy.Lib.Redis
import Noxy.SlidingWindow.Alone

namespace Noxy
namespace SlidingWindow

open Lib Redis Store

/-- `SLIDING_WINDOW_LUA`: its reply, and the database after it. -/
def slidingWindowLua (count windowMs : ℕ) (member key : String) (nowMs : ℤ) (db : Db ZSet) :
    ℤ × Db ZSet :=
  let db := elapse nowMs db
  let cutoff := nowMs - windowMs
  let db := zremrangebyscore key cutoff db
  let current := zcard key db
  if current < count then
    (0, pexpire nowMs key (windowMs + 1000) (zadd key nowMs member db))
  else
    match lowestScore key db with
    | some oldestMs =>
        let delayMs := windowMs - (nowMs - oldestMs)
        let delayMs := if delayMs < 0 then 0 else delayMs
        let reservedMs := nowMs + delayMs
        (delayMs,
          pexpire nowMs key (windowMs + delayMs.toNat + 1000) (zadd key reservedMs member db))
    | none => (0, db)

/-- `RedisSlidingWindowStore`, without its connection and its fallback; `redisKey` is
`prefixed_key` of the connection with the namespace of the store. -/
structure RedisSlidingWindowStore where
  count : ℕ
  window : ℕ
  redisKey : String → String

/-- The script of `take` with its arguments. -/
def RedisSlidingWindowStore.script (store : RedisSlidingWindowStore) (key member : String)
    (nowMs : ℤ) (db : Db ZSet) : ℤ × Db ZSet :=
  slidingWindowLua store.count (asMillis store.window) member (store.redisKey key) nowMs db

/-- The sorted set of the key when its old scores have been removed. -/
def remaining (windowMs : ℕ) (key : String) (nowMs : ℤ) (db : Db ZSet) : ZSet :=
  (zset key (elapse nowMs db)).retain fun _ score => !decide (score ≤ nowMs - windowMs)

/-- The least element of a sorted list, in whatever order it is given, is its head. -/
theorem min?_eq_head? {scores ts : List ℤ} (hp : scores.Perm ts) (hs : ts.Pairwise (· ≤ ·)) :
    scores.min? = ts.head? := by
  cases ts with
  | nil =>
      rw [List.perm_nil.mp hp]
      rfl
  | cons f rest =>
      rw [List.head?_cons, List.min?_eq_some_iff]
      refine ⟨hp.mem_iff.mpr (List.mem_cons_self ..), fun x hx => ?_⟩
      rcases List.mem_cons.mp (hp.mem_iff.mp hx) with rfl | hx
      · exact le_rfl
      · exact (List.pairwise_cons.mp hs).1 x hx

/-- **What the script does**, when the scores that are left are those of a sorted list
`rest` and `takeWindow` would delay by `delay`: it replies the delay, adds the member with
the instant its request is let through, and the key expires a window and a second after
that instant. -/
theorem slidingWindowLua_released {count windowMs delay : ℕ} (member : String) {key : String}
    {nowMs : ℤ} {db : Db ZSet} {rest : List ℤ}
    (hscores : (remaining windowMs key nowMs db).scores.Perm rest)
    (hsorted : rest.Pairwise (· ≤ ·)) (hr : Released count windowMs nowMs rest (nowMs + delay)) :
    (slidingWindowLua count windowMs member key nowMs db).1 = delay ∧
      (slidingWindowLua count windowMs member key nowMs db).2.lookup key =
        some ⟨(remaining windowMs key nowMs db).insert member (nowMs + delay),
          some (nowMs + (windowMs + delay + 1000 : ℕ))⟩ := by
  rw [remaining, ← zset_zremrangebyscore] at hscores ⊢
  unfold slidingWindowLua
  dsimp only
  generalize zremrangebyscore key (nowMs - windowMs) (elapse nowMs db) = db' at hscores
  have hcard : zcard key db' = rest.length := by
    rw [zcard, len_eq_length_scores, hscores.length_eq]
  have hlowest : lowestScore key db' = rest.head? := min?_eq_head? hscores hsorted
  rw [hcard, hlowest]
  rcases hr with ⟨hnow, hlen⟩ | ⟨f, hf, hlen, hnow⟩
  · obtain rfl : delay = 0 := by omega
    rw [if_pos hlen]
    refine ⟨rfl, ?_⟩
    rw [lookup_pexpire_zadd nowMs key (by omega)]
    simp
  · have hdelay : (windowMs : ℤ) - (nowMs - f) = delay := by omega
    rw [if_neg (by omega), hf]
    dsimp only
    rw [hdelay, if_neg (by omega)]
    refine ⟨rfl, ?_⟩
    rw [lookup_pexpire_zadd nowMs key (by omega), Int.toNat_natCast]

section Tracks

variable {count windowMs : ℕ} {key : String} {used : List String} {last nowMs : ℤ} {ts : List ℤ}
  {db : Db ZSet}

/-- The sorted set of the key is the deque `ts`: its scores are the instants of the deque,
its members are among those `used`, and it is there until all of it has left the
window. -/
structure Tracks (count windowMs : ℕ) (key : String) (used : List String) (last : ℤ)
    (ts : List ℤ) (db : Db ZSet) : Prop where
  valid : Valid count windowMs last ts
  scores : (zset key db).scores.Perm ts
  members : ∀ m ∈ zset key db, m ∈ used
  expiry : ∀ e, db.lookup key = some e →
    ∃ t, e.expiresAt = some t ∧ ∀ x ∈ e.value.scores, x + windowMs < t

theorem tracks_missing (count windowMs : ℕ) (last : ℤ) (h : db.lookup key = none) :
    Tracks count windowMs key [] last [] db := by
  refine ⟨valid_nil _ _ _, ?_, ?_, ?_⟩
  · rw [zset_none h]
    exact List.Perm.refl _
  · rw [zset_none h]
    intro m hm
    exact absurd hm (AList.notMem_empty m)
  · rw [h]
    rintro e ⟨⟩

/-- When the key has expired, everything in it has left the window. -/
theorem Tracks.expired (h : Tracks count windowMs key used last ts db) {e : Entry ZSet}
    (he : db.lookup key = some e) (hdead : e.live nowMs = false) :
    ∀ x ∈ e.value.scores, x ≤ nowMs - windowMs := by
  intro x hx
  obtain ⟨t, ht, hall⟩ := h.expiry e he
  have hx := hall x hx
  have ht : t < nowMs := by simpa [Entry.live, ht] using hdead
  omega

/-- The members that are left after the time has passed and the old scores have gone. -/
theorem Tracks.members_left (h : Tracks count windowMs key used last ts db) (nowMs : ℤ) :
    ∀ m ∈ remaining windowMs key nowMs db, m ∈ used := by
  intro m hm
  refine h.members m ?_
  rw [← AList.lookup_isSome, remaining, HashMap.lookup_retain] at hm
  rw [← AList.lookup_isSome]
  cases hdb : db.lookup key with
  | none =>
      rw [zset_none (lookup_elapse_none hdb)] at hm
      simp at hm
  | some e =>
      rw [zset_some hdb]
      cases hlive : e.live nowMs with
      | false =>
          rw [zset_none (lookup_elapse_dead hdb hlive)] at hm
          simp at hm
      | true =>
          rw [zset_some (lookup_elapse_live hdb hlive)] at hm
          cases hval : e.value.lookup m with
          | none => simp [hval] at hm
          | some score => rfl

/-- **The time passes and the old scores go**: what is left is the drained deque, whether
the key has expired or not. -/
theorem Tracks.scores_left (h : Tracks count windowMs key used last ts db) (nowMs : ℤ) :
    (remaining windowMs key nowMs db).scores.Perm (drain (nowMs - windowMs) ts) := by
  rw [remaining, scores_retain fun score => !decide (score ≤ nowMs - windowMs),
    drain_eq_filter h.valid.sorted]
  have hperm := h.scores.filter fun x => !decide (x ≤ nowMs - windowMs)
  cases hdb : db.lookup key with
  | none =>
      rw [zset_none (lookup_elapse_none hdb), ← zset_none hdb]
      exact hperm
  | some e =>
      cases hlive : e.live nowMs with
      | true =>
          rw [zset_some (lookup_elapse_live hdb hlive), ← zset_some hdb]
          exact hperm
      | false =>
          have hgone : e.value.scores.filter (fun x => !decide (x ≤ nowMs - windowMs)) = [] := by
            rw [List.filter_eq_nil_iff]
            intro x hx
            simpa using h.expired hdb hlive x hx
          rw [zset_some hdb, hgone] at hperm
          rw [zset_none (lookup_elapse_dead hdb hlive)]
          exact hperm

/-- **A take.**  With a new member, the script replies what `takeWindow` answers and the
sorted set is the deque again. -/
theorem Tracks.step (h : Tracks count windowMs key used last ts db) (hcount : 1 ≤ count)
    (hnow : last ≤ nowMs) {member : String} (hfresh : member ∉ used) :
    ∃ (delay : Option ℕ) (ts' : List ℤ),
      takeWindow count windowMs nowMs ts = .ok (delay, ts') ∧
      (slidingWindowLua count windowMs member key nowMs db).1 = (delay.getD 0 : ℕ) ∧
      Tracks count windowMs key (member :: used) nowMs ts'
        (slidingWindowLua count windowMs member key nowMs db).2 := by
  obtain ⟨delay, htake, hr⟩ := takeWindow_ok hcount h.valid hnow
  have hvalid := h.valid.drain hnow
  obtain ⟨hreply, hlookup⟩ :=
    slidingWindowLua_released member (h.scores_left nowMs) hvalid.sorted hr
  have hperm : (ZSet.scores ((remaining windowMs key nowMs db).insert member
      (nowMs + (delay.getD 0 : ℕ)))).Perm
      (drain (nowMs - windowMs) ts ++ [nowMs + (delay.getD 0 : ℕ)]) := by
    rw [scores_insert fun hm => hfresh (h.members_left nowMs member hm)]
    exact ((h.scores_left nowMs).cons _).trans (List.perm_append_singleton _ _).symm
  refine ⟨delay, _, htake, hreply, hvalid.push (lt_of_mem_drain h.valid.sorted) hr, ?_, ?_, ?_⟩
  · rw [zset_some hlookup]
    exact hperm
  · rw [zset_some hlookup]
    intro m hm
    rcases (AList.mem_insert _).mp hm with rfl | hm
    · exact List.mem_cons_self ..
    · exact List.mem_cons_of_mem _ (h.members_left nowMs m hm)
  · intro e he
    obtain rfl := Option.some.inj (hlookup.symm.trans he)
    refine ⟨_, rfl, fun x hx => ?_⟩
    -- Nothing in the deque is later than the request that was just taken.
    rcases List.mem_append.mp (hperm.mem_iff.mp hx) with hx | hx
    · have := hvalid.le_release hr x hx
      omega
    · rw [List.mem_singleton.mp hx]
      omega

end Tracks

end SlidingWindow
end Noxy
