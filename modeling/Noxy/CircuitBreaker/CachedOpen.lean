/-
# When a cached rejection outlives its circuit

`src/middleware/circuit_breaker.rs`: the documentation of `cache_ttl` says that open results
are cached "for `min(ttl, remaining recovery time)` so the cache never delays the
Open→HalfOpen transition".  The remaining time is counted from the millisecond at which the
script ran; the entry expires that long after the instant of the insert, which comes later.
So a rejection may be found in the cache when the `until_ms` of its circuit has been reached
(`delayed_insert_outlives_deadline`), for as long as the reply was on its way, and for the
part of a millisecond that the script cuts off.

The futures of a store take their steps in any order, and any time passes between two steps
(`Later`).  An open circuit keeps its deadline until it is reached (`OpenUntil.step`), and no
other circuits are open (`OpensLast`).  `cached_open_prompt_iff` is exact: no `check` that
starts when the deadline has been reached is rejected by the cache, whatever happens, if and
only if each rejection that is inserted expires before the deadline that the circuit then
has.
-/

import Noxy.CircuitBreaker.OpenInRedis
import Noxy.Lib.Run

namespace Noxy
namespace CircuitBreaker

open Lib Redis Store

namespace RedisCircuitBreakerStore

variable {store : RedisCircuitBreakerStore} {k key : String} {nowMs t : ℤ} {db db' : Db (Hash ℤ)}
  {offset : ℤ}

/-! ### Open circuits in Redis -/

/-- As Redis has it, the circuit of `k` is open and its `until_ms` has not been reached. -/
def StillOpen (store : RedisCircuitBreakerStore) (k : String) (nowMs : ℤ) (db : Db (Hash ℤ)) :
    Prop :=
  num (store.hashAt k nowMs db) "state" = 1 ∧ nowMs < num (store.hashAt k nowMs db) "until_ms"

theorem hashAt_of_lookup {e : Entry (Hash ℤ)}
    (h : (elapse nowMs db).lookup (store.redisKey k) = some e) :
    store.hashAt k nowMs db = e.value := by
  rw [hashAt, valueOf, h]
  rfl

/-- A script leaves the hashes of the other keys that are left at its time. -/
theorem hashAt_congr
    (h : db'.lookup (store.redisKey k) = (elapse nowMs db).lookup (store.redisKey k)) :
    store.hashAt k nowMs db' = store.hashAt k nowMs db := by
  unfold hashAt valueOf
  rw [lookup_elapse, h, lookup_elapse, Option.filter_filter]
  simp

/-- An open circuit has a key that has not expired. -/
theorem StillOpen.exists_entry (h : store.StillOpen k nowMs db) :
    ∃ e, db.lookup (store.redisKey k) = some e ∧ e.live nowMs = true ∧
      store.hashAt k nowMs db = e.value := by
  cases hlookup : (elapse nowMs db).lookup (store.redisKey k) with
  | none =>
      have hstate := h.1
      rw [hashAt, valueOf, hlookup] at hstate
      exact absurd hstate (by decide)
  | some e =>
      rw [lookup_elapse] at hlookup
      obtain ⟨hraw, hlive⟩ := Option.filter_eq_some_iff.mp hlookup
      exact ⟨e, hraw, hlive, hashAt_of_lookup (lookup_elapse_live hraw hlive)⟩

/-- A circuit that is open later, by the same entry, is open now, until the same time. -/
theorem StillOpen.of_later (h : store.StillOpen k nowMs db) (ht : t ≤ nowMs) :
    store.StillOpen k t db ∧ store.hashAt k t db = store.hashAt k nowMs db := by
  obtain ⟨e, hraw, hlive, hvalue⟩ := h.exists_entry
  have hearlier : e.live t = true := live_of_forall fun x hx => by
    simp only [Entry.live, Option.mem_def.mp hx, Option.all_some, decide_eq_true_eq] at hlive
    omega
  have hsame : store.hashAt k t db = store.hashAt k nowMs db :=
    (hashAt_of_lookup (lookup_elapse_live hraw hearlier)).trans hvalue.symm
  refine ⟨⟨?_, ?_⟩, hsame⟩
  · rw [hsame]
    exact h.1
  · rw [hsame]
    exact ht.trans_lt h.2

theorem OpenUntil.holds {d : ℤ} (h : store.OpenUntil k d t db) (hd : nowMs < d) :
    Holds (store.hashAt k nowMs db) (.opened d) := by
  obtain ⟨e, hlookup, hholds, -⟩ := (h.elapse hd).entry
  rwa [hashAt_of_lookup hlookup]

theorem OpenUntil.stillOpen {d : ℤ} (h : store.OpenUntil k d t db) (hd : nowMs < d) :
    store.StillOpen k nowMs db := by
  obtain ⟨hstate, huntil⟩ := h.holds hd
  exact ⟨hstate, by rwa [huntil]⟩

/-- Every open circuit lasts until its deadline. -/
def OpensLast (store : RedisCircuitBreakerStore) (t : ℤ) (db : Db (Hash ℤ)) : Prop :=
  ∀ k, store.StillOpen k t db → ∃ d, t < d ∧ store.OpenUntil k d t db

theorem OpensLast.mono (h : store.OpensLast t db) (ht : t ≤ nowMs) : store.OpensLast nowMs db := by
  intro k hopen
  obtain ⟨hearlier, hsame⟩ := hopen.of_later ht
  obtain ⟨d, hd, huntil⟩ := h k hearlier
  have hdeadline := (huntil.holds hd).2
  have hlater := hopen.2
  rw [hsame] at hdeadline
  exact ⟨d, by omega, huntil.mono ht⟩

/-- The script of a `check` opens no circuit: it leaves those that are open as they are. -/
theorem checkHash_of_state {halfOpenProbes : ℕ} {h : Hash ℤ}
    (hstate : num (checkHash halfOpenProbes nowMs h).2 "state" = 1) :
    (checkHash halfOpenProbes nowMs h).2 = h := by
  unfold checkHash at hstate ⊢
  split_ifs at hstate ⊢ <;> simp_all [Hash.set, num_insert_ne]

theorem stillOpen_of_check (h : store.StillOpen k nowMs (store.checkScript key nowMs db).2) :
    store.StillOpen k nowMs db := by
  have hscript := store.lookup_checkScript_self key nowMs db
  unfold StillOpen at h ⊢
  by_cases hk : store.redisKey k = store.redisKey key
  · rw [← hk] at hscript
    cases hlookup : (elapse nowMs db).lookup (store.redisKey k) with
    | none =>
        rw [hlookup] at hscript
        rw [hscript, hashAt_congr rfl] at h
        exact h
    | some e =>
        rw [hlookup] at hscript
        have hlive := live_renewed store nowMs (checkHash store.halfOpenProbes nowMs e.value).2
          fun x hx => (Option.some.inj hx).symm
        rw [hashAt_of_lookup (lookup_elapse_live hscript.2 hlive)] at h
        rw [checkHash_of_state h.1] at h
        rwa [hashAt_of_lookup hlookup]
  · rwa [hashAt_congr (store.lookup_checkScript_ne key nowMs db hk)] at h

/-- The script of a `record` opens the circuit of its key, or none. -/
theorem stillOpen_of_record {success : Bool}
    (h : store.StillOpen k nowMs (store.recordScript key success nowMs db)) :
    store.StillOpen k nowMs db ∨
      ∃ d, nowMs < d ∧ store.OpenUntil k d nowMs (store.recordScript key success nowMs db) := by
  by_cases hk : store.redisKey k = store.redisKey key
  · have hsame : store.recordScript key success nowMs db =
        store.recordScript k success nowMs db := by
      rw [recordScript, ← hk, recordScript]
    rw [hsame] at h ⊢
    by_cases hbefore : num (store.hashAt k nowMs db) "state" = 1
    · refine Or.inl ?_
      unfold StillOpen at h ⊢
      rw [hashAt_recordScript, recordHash, if_neg (by omega), if_neg (by omega)] at h
      exact h
    · exact Or.inr ⟨_, h.2, openUntil_tripped (if_pos ⟨hbefore, h.1⟩)⟩
  · refine Or.inl ?_
    unfold StillOpen at h ⊢
    rwa [hashAt_congr (store.lookup_recordScript_ne key nowMs db hk success)] at h

/-- **A step of a future** leaves no open circuit that its key does not outlast. -/
theorem OpensLast.step {s : Instance} (h : store.OpensLast t s.redis) (clock : ℤ → ℤ) (x : Tick)
    (ht : t ≤ clock x.now) :
    store.OpensLast (clock x.now) (store.step clock s x).redis := by
  have hnow := h.mono ht
  intro k hopen
  rcases redis_step store clock s x with hr | ⟨key, hr⟩ | ⟨key, success, hr⟩
  · rw [hr] at hopen ⊢
    exact hnow k hopen
  · rw [hr] at hopen ⊢
    obtain ⟨d, hd, huntil⟩ := hnow k (stillOpen_of_check hopen)
    exact ⟨d, hd, huntil.check le_rfl hd key⟩
  · rw [hr] at hopen ⊢
    rcases stillOpen_of_record hopen with hold | hnew
    · obtain ⟨d, hd, huntil⟩ := hnow k hold
      exact ⟨d, hd, huntil.record le_rfl hd key success⟩
    · exact hnew

/-! ### Rejections in the cache -/

/-- The time of Redis in milliseconds, when its clock and the local one advance at the same
rate. -/
def redisTime (offset now : ℤ) : ℤ := (now + offset) / 1000000

theorem redisTime_mono {a b : ℤ} (h : a ≤ b) : redisTime offset a ≤ redisTime offset b :=
  Int.ediv_le_ediv (by decide) (by omega)

theorem redisTime_lt_iff {now d : ℤ} : redisTime offset now < d ↔ now + offset < d * 1000000 :=
  Int.ediv_lt_iff_lt_mul (by decide)

/-- An instance at an instant. -/
structure InstanceAt where
  inst : Instance
  now : ℤ

/-- A step of a future, `after` nanoseconds after the step before it. -/
structure Later where
  after : ℕ
  event : CacheEvent

/-- The instant of a step. -/
def InstanceAt.next (m : InstanceAt) (x : Later) : ℤ := m.now + x.after

theorem InstanceAt.now_le_next (m : InstanceAt) (x : Later) : m.now ≤ m.next x := by
  unfold next
  omega

/-- The instance after a step, and the instant of it. -/
def stepAfter (store : RedisCircuitBreakerStore) (offset : ℤ) (m : InstanceAt) (x : Later) :
    InstanceAt :=
  ⟨store.step (redisTime offset) m.inst ⟨m.next x, x.event⟩, m.next x⟩

/-- No `check` that starts at this moment or later is rejected by the cache, unless the
circuit is open in Redis and its `until_ms` has not been reached. -/
def Prompt (store : RedisCircuitBreakerStore) (offset : ℤ) (m : InstanceAt) : Prop :=
  ∀ k t, m.now ≤ t →
    store.decided (redisTime offset) m.inst ⟨t, .lookup k⟩ = some (k, .reject) →
      store.StillOpen k (redisTime offset t) m.inst.redis

/-- A step that inserts a rejection, for some time, has an open circuit whose `until_ms` is
not reached before the entry expires. -/
def InsertedInTime (store : RedisCircuitBreakerStore) (offset : ℤ) (m : InstanceAt) (x : Later) :
    Prop :=
  ∀ i k code ttl, x.event = .checkInsert i → m.inst.checks[i]? = some (.replied k code) →
    0 < code → store.cacheTtl = some ttl → 0 < ttl →
      let hash := store.hashAt k (redisTime offset (m.next x)) m.inst.redis
      num hash "state" = 1 ∧
        m.next x + (min ttl (fromMillis code.toNat) : ℕ) + offset ≤ num hash "until_ms" * 1000000

/-- A rejection of `k` that expires at `expiresAt` is justified by an open circuit up to
then. -/
def Justified (store : RedisCircuitBreakerStore) (offset : ℤ) (k : String) (expiresAt now : ℤ)
    (db : Db (Hash ℤ)) : Prop :=
  ∃ d, store.OpenUntil k d (redisTime offset now) db ∧ expiresAt + offset ≤ d * 1000000

/-- The circuit is open at each instant before the entry expires exactly if one deadline
covers them all. -/
theorem justified_iff {expiresAt now : ℤ} (hlast : store.OpensLast (redisTime offset now) db)
    (hlive : now < expiresAt) :
    store.Justified offset k expiresAt now db ↔
      ∀ t, now ≤ t → t < expiresAt → store.StillOpen k (redisTime offset t) db := by
  constructor
  · rintro ⟨d, huntil, hd⟩ t - ht
    exact huntil.stillOpen (redisTime_lt_iff.mpr (by omega))
  · intro h
    -- the last instant before the expiry is seen by the entry of now
    have hend := h (expiresAt - 1) (by omega) (by omega)
    obtain ⟨hopen, hsame⟩ := hend.of_later (redisTime_mono (show now ≤ expiresAt - 1 by omega))
    obtain ⟨d, hd, huntil⟩ := hlast k hopen
    have hdeadline := (huntil.holds hd).2
    have hlt := hend.2
    rw [← hsame, hdeadline, redisTime_lt_iff] at hlt
    exact ⟨d, huntil, by omega⟩

/-- A `check` that the cache rejects has found an entry that rejects it. -/
theorem decided_lookup_iff {clock : ℤ → ℤ} {s : Instance} :
    store.decided clock s ⟨t, .lookup k⟩ = some (k, .reject) ↔
      store.cacheTtl ≠ none ∧ ∃ entry, s.cache.entries.lookup k = some entry ∧
        t < entry.expiresAt ∧ entry.action = .reject := by
  unfold decided
  dsimp only
  cases store.cacheTtl with
  | none => simp
  | some ttl => simp [hit_maybeCleanup, ← hit_eq_some_iff]

/-- A moment is prompt exactly if the rejections that have not expired are justified. -/
theorem prompt_iff {m : InstanceAt}
    (hlast : store.OpensLast (redisTime offset m.now) m.inst.redis) :
    store.Prompt offset m ↔
      (store.cacheTtl ≠ none → ∀ k entry, m.inst.cache.entries.lookup k = some entry →
        entry.action = .reject → m.now < entry.expiresAt →
          store.Justified offset k entry.expiresAt m.now m.inst.redis) := by
  constructor
  · intro h httl k entry hentry hreject hlive
    refine (justified_iff hlast hlive).mpr fun t hnow ht => ?_
    exact h k t hnow (decided_lookup_iff.mpr ⟨httl, entry, hentry, ht, hreject⟩)
  · intro h k t hnow hdecided
    obtain ⟨httl, entry, hentry, ht, hreject⟩ := decided_lookup_iff.mp hdecided
    have hlive : m.now < entry.expiresAt := hnow.trans_lt ht
    exact (justified_iff hlast hlive).mp (h httl k entry hentry hreject hlive) t hnow ht

/-- An insert that is in time is justified, and only that one. -/
theorem justified_iff_until {expiresAt now : ℤ}
    (hlast : store.OpensLast (redisTime offset now) db) (hlive : now < expiresAt) :
    store.Justified offset k expiresAt now db ↔
      num (store.hashAt k (redisTime offset now) db) "state" = 1 ∧
        expiresAt + offset ≤
          num (store.hashAt k (redisTime offset now) db) "until_ms" * 1000000 := by
  constructor
  · rintro ⟨d, huntil, hd⟩
    have hbefore : now + offset < d * 1000000 := by omega
    obtain ⟨hstate, hdeadline⟩ := huntil.holds (redisTime_lt_iff.mpr hbefore)
    exact ⟨hstate, by rwa [hdeadline]⟩
  · rintro ⟨hstate, huntil⟩
    have hopen : store.StillOpen k (redisTime offset now) db :=
      ⟨hstate, redisTime_lt_iff.mpr (by omega)⟩
    obtain ⟨d, hd, hlasts⟩ := hlast k hopen
    rw [(hlasts.holds hd).2] at huntil
    exact ⟨d, hlasts, huntil⟩

/-- A justified rejection stays so until it expires. -/
theorem Justified.step {expiresAt : ℤ} {m : InstanceAt} {x : Later}
    (h : store.Justified offset k expiresAt m.now m.inst.redis) (hlive : m.next x < expiresAt) :
    store.Justified offset k expiresAt (m.next x) (store.stepAfter offset m x).inst.redis := by
  obtain ⟨d, huntil, hd⟩ := h
  refine ⟨d, huntil.step (redisTime offset) ⟨m.next x, x.event⟩ ?_ ?_, hd⟩
  · exact redisTime_mono (m.now_le_next x)
  · exact redisTime_lt_iff.mpr (by dsimp only; omega)

/-- The instance after an insert. -/
theorem stepAfter_checkInsert {m : InstanceAt} {x : Later} {i : ℕ} {code : ℤ}
    (hevent : x.event = .checkInsert i) (hi : m.inst.checks[i]? = some (.replied k code)) :
    (store.stepAfter offset m x).inst =
      { m.inst with
        cache := store.cacheReply m.inst.cache k code (m.next x)
        checks := m.inst.checks.eraseIdx i } := by
  unfold stepAfter step
  simp only [hevent, hi]

/-- What an open reply leaves in the cache. -/
theorem lookup_cacheReply_open (cache : LocalCache) (k : String) (now : ℤ) {code : ℤ} {ttl : ℕ}
    (hcode : 0 < code) (httl : store.cacheTtl = some ttl) :
    (store.cacheReply cache k code now).entries.lookup k =
      some ⟨.reject, now + (min ttl (fromMillis code.toNat) : ℕ)⟩ := by
  unfold cacheReply
  rw [httl]
  dsimp only
  rw [if_neg (by omega), if_pos hcode, AList.lookup_insert, action, if_pos (Or.inl hcode)]

/-- A reply is cached for some time when there is a time to live. -/
theorem lt_add_kept (now : ℤ) {code : ℤ} {ttl : ℕ} (hcode : 0 < code) (httl : 0 < ttl) :
    now < now + (min ttl (fromMillis code.toNat) : ℕ) := by
  have hkept : 0 < min ttl (fromMillis code.toNat) := lt_min httl (by unfold fromMillis; omega)
  omega

/-- **One step.**  From a prompt moment a step leads to one exactly if what it inserts is in
time. -/
theorem prompt_step_iff {m : InstanceAt} {x : Later}
    (hlast : store.OpensLast (redisTime offset m.now) m.inst.redis)
    (hprompt : store.Prompt offset m) :
    store.Prompt offset (store.stepAfter offset m x) ↔ store.InsertedInTime offset m x := by
  have hmono : redisTime offset m.now ≤ redisTime offset (m.next x) :=
    redisTime_mono (m.now_le_next x)
  have hnext : store.OpensLast (redisTime offset (store.stepAfter offset m x).now)
      (store.stepAfter offset m x).inst.redis :=
    hlast.step (redisTime offset) ⟨m.next x, x.event⟩ hmono
  rw [prompt_iff hnext]
  constructor
  · intro h i k code ttl hevent hi hcode httl hpos
    have hlive := lt_add_kept (m.next x) hcode hpos
    rw [stepAfter_checkInsert hevent hi] at h
    have hjust := h (by simp [httl]) k _ (lookup_cacheReply_open _ k _ hcode httl) rfl hlive
    exact (justified_iff_until (hlast.mono hmono) hlive).mp hjust
  · intro h httl k entry hentry hreject hlive
    obtain ⟨ttl, httl⟩ := Option.ne_none_iff_exists'.mp httl
    rcases lookup_cache_step httl hentry with hold | ⟨i, code, hevent, hi, ⟨-, rfl⟩ | ⟨hcode, rfl⟩⟩
    · have hbefore := (prompt_iff hlast).mp hprompt (by simp [httl]) k entry hold hreject
        ((m.now_le_next x).trans_lt hlive)
      exact hbefore.step hlive
    · cases hreject
    · have hpos : 0 < ttl := by
        by_contra hzero
        have : (store.stepAfter offset m x).now = m.next x := rfl
        dsimp only at hlive
        omega
      rw [stepAfter_checkInsert hevent hi]
      exact (justified_iff_until (hlast.mono hmono) (lt_add_kept _ hcode hpos)).mpr
        (h i k code ttl hevent hi hcode httl hpos)

theorem opensLast_empty (store : RedisCircuitBreakerStore) (t : ℤ) : store.OpensLast t ∅ := by
  intro k hopen
  obtain ⟨e, hentry, -⟩ := hopen.exists_entry
  cases hentry

/-- **When the cache never delays a recovery.**  From a new store and an empty Redis, in
every run of any futures: at no moment is there a `check` that starts then or later, when the
`until_ms` of its circuit has been reached, and is rejected by the cache, exactly if each
step that inserts a rejection finds the circuit open, and the entry expires no later than the
`until_ms` of it is reached. -/
theorem cached_open_prompt_iff (store : RedisCircuitBreakerStore) (offset created : ℤ)
    (fallback : SharedState) (xs : List Later) :
    Always (store.stepAfter offset) (store.Prompt offset) ⟨start ∅ fallback created, created⟩ xs ↔
      Along (store.stepAfter offset) (store.InsertedInTime offset)
        ⟨start ∅ fallback created, created⟩ xs := by
  refine always_iff_along
    (J := fun m => store.OpensLast (redisTime offset m.now) m.inst.redis) ?_ ?_ ?_ ?_ xs
  · intro m x hlast
    exact hlast.step (redisTime offset) ⟨m.next x, x.event⟩ (redisTime_mono (m.now_le_next x))
  · intro m x hlast hprompt
    exact prompt_step_iff hlast hprompt
  · exact opensLast_empty store (redisTime offset created)
  · refine (prompt_iff (opensLast_empty store _)).mpr ?_
    intro _ k entry hentry
    cases hentry

/-- A circuit that opens at its first failure for ten seconds, cached for half a minute. -/
def cachedLong : RedisCircuitBreakerStore :=
  ⟨1, fromSecs 10, 1, some (fromSecs 30), fun key => "noxy:" ++ key⟩

/-- A failure opens the circuit; a `check` is answered at once, and caches the answer half a
second later. -/
def delayedInsert : List Later :=
  [⟨0, .recordScript "k" false⟩, ⟨0, .recordRemove 0⟩, ⟨0, .lookup "k"⟩, ⟨0, .checkScript 0⟩,
    ⟨fromMillis 500, .checkInsert 0⟩]

/-- **A delayed insert outlives the deadline.**  The circuit is open until millisecond 10000.
At that millisecond a `check` starts, and the cache rejects it. -/
theorem delayed_insert_outlives_deadline :
    let m := run (cachedLong.stepAfter 0)
      ⟨start ∅ (.new 1 (fromSecs 10) 0) 0, 0⟩ delayedInsert
    m.now ≤ fromSecs 10 ∧
      num (cachedLong.hashAt "k" (redisTime 0 (fromSecs 10)) m.inst.redis) "until_ms" =
        redisTime 0 (fromSecs 10) ∧
      cachedLong.decided (redisTime 0) m.inst ⟨fromSecs 10, .lookup "k"⟩ = some ("k", .reject) := by
  decide +kernel

end RedisCircuitBreakerStore
end CircuitBreaker
end Noxy
