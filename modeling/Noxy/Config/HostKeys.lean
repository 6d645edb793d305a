/-
# Keys per host

`extract_host` in `src/middleware/rate_limiter.rs`, `src/middleware/sliding_window.rs` and
`src/middleware/circuit_breaker.rs`, and `host_key` in `src/config.rs`.

The four are copies of one function: the host of the URI or the `Host` line, up to its first
colon.  Of a registered name or an IPv4 address that takes the port off.  Of an IPv6 address it
leaves the bracket and the first group (`key_address`), so addresses that start with the same
group have one key; and a request that names no host shares its key with the host `unknown`.
There are no other collisions (`perHost_keys_separate_iff`).
-/

import Mathlib.Data.Bool.AllAny
import Noxy.Config.Panics
import Noxy.Config.RedisKeys

namespace Noxy

open Http Config

/-- `extract_host` of the rate limiter. -/
def RateLimiter.extractHost (C : Crates) : Request C.http → String := hostKey C

/-- `extract_host` of the sliding window. -/
def SlidingWindow.extractHost (C : Crates) : Request C.http → String := hostKey C

/-- `extract_host` of the circuit breaker. -/
def CircuitBreaker.extractHost (C : Crates) : Request C.http → String := hostKey C

namespace Config

/-- The keys of rules that are per host. -/
def perHostKeys (C : Crates) : List (Request C.http → String) :=
  [RateLimiter.extractHost C, SlidingWindow.extractHost C, CircuitBreaker.extractHost C, hostKey C]

/-- A host: a registered name or an IPv4 address, or an IPv6 address, which stands in
brackets. -/
inductive Host where
  | name (text : String) (plain : ∀ c ∈ text.toList, c ≠ ':' ∧ c ≠ '[' ∧ c ≠ ']')
  | address (text : String) (colon : ':' ∈ text.toList)
      (plain : ∀ c ∈ text.toList, c ≠ '[' ∧ c ≠ ']')

namespace Host

/-- The host as it is written. -/
def text : Host → String
  | name text _ => text
  | address text _ _ => "[" ++ text ++ "]"

end Host

/-- The key of a host, or of none. -/
def keyOf : Option Host → String
  | some host => beforeColon host.text
  | none => "unknown"

/-- A port as it is written, or nothing. -/
def portText : Option ℕ → String
  | some port => ":" ++ toString port
  | none => ""

/-- The host that a request names: that of its URI, or else of its `Host` line, with a port
or without. -/
def Named (C : Crates) (req : Request C.http) : Option Host → Prop
  | some host => ∃ port, ((C.http.host req.uri).orElse fun _ =>
      (HeaderMap.get req.headers "host").bind C.http.toStr) = some (host.text ++ portText port)
  | none => ((C.http.host req.uri).orElse fun _ =>
      (HeaderMap.get req.headers "host").bind C.http.toStr) = none

/-- Two IPv6 addresses that start with the same group. -/
def SameGroup : Option Host → Option Host → Prop
  | some (.address a _ _), some (.address b _ _) => beforeColon a = beforeColon b
  | _, _ => False

/-- A request without a host, and one that names the host `unknown`. -/
def Unknown : Option Host → Option Host → Prop
  | none, some (.name text _) => text = "unknown"
  | some (.name text _), none => text = "unknown"
  | _, _ => False

/-! ### What is left of a host -/

theorem beforeColon_append {text rest : String}
    (h : ':' ∈ text.toList ∨ ∀ c ∈ rest.toList.head?, c = ':') :
    beforeColon (text ++ rest) = beforeColon text := by
  unfold beforeColon
  rw [String.toList_append]
  congr 1
  generalize text.toList = cs at h ⊢
  induction cs with
  | nil =>
      rcases h with h | h
      · cases h
      · cases hrest : rest.toList with
        | nil => rfl
        | cons c cs =>
            rw [hrest] at h
            obtain rfl : c = ':' := h c rfl
            rfl
  | cons c cs ih =>
      rw [List.cons_append, List.takeWhile_cons, List.takeWhile_cons]
      split
      · rename_i hc
        rw [ih]
        refine h.imp_left fun hmem => (List.mem_cons.mp hmem).resolve_left ?_
        rintro rfl
        exact absurd hc (by decide)
      · rfl

/-- The port is taken off. -/
theorem beforeColon_append_portText (text : String) (port : Option ℕ) :
    beforeColon (text ++ portText port) = beforeColon text := by
  refine beforeColon_append (.inr fun c hc => ?_)
  cases port with
  | none => cases hc
  | some port =>
      rw [portText, String.toList_append] at hc
      exact (Option.some.inj hc).symm

theorem key_name {text : String} (plain : ∀ c ∈ text.toList, c ≠ ':' ∧ c ≠ '[' ∧ c ≠ ']') :
    keyOf (some (.name text plain)) = text := by
  exact beforeColon_of_not_mem fun hcolon => (plain _ hcolon).1 rfl

/-- **What is left of an IPv6 address**: the bracket and the first group. -/
theorem key_address {text : String} (colon : ':' ∈ text.toList)
    (plain : ∀ c ∈ text.toList, c ≠ '[' ∧ c ≠ ']') :
    keyOf (some (.address text colon plain)) = "[" ++ beforeColon text := by
  rw [keyOf, Host.text, beforeColon_append]
  · rw [← String.toList_inj, String.toList_append]
    unfold beforeColon
    simp only [String.toList_ofList, String.toList_append]
    rfl
  · refine .inl ?_
    rw [String.toList_append]
    exact List.mem_append_right _ colon

/-- The key of a request is the key of its host. -/
theorem hostKey_eq_keyOf {C : Crates} {req : Request C.http} {host : Option Host}
    (h : Named C req host) : hostKey C req = keyOf host := by
  cases host with
  | none =>
      rw [Named] at h
      rw [hostKey, requestHost, h]
      rfl
  | some host =>
      obtain ⟨port, hport⟩ := h
      rw [hostKey, requestHost, hport, Option.map_some, beforeColon_append_portText]
      rfl

/-- No name starts with a bracket. -/
theorem name_ne_bracket {text : String} (plain : ∀ c ∈ text.toList, c ≠ ':' ∧ c ≠ '[' ∧ c ≠ ']')
    (rest : String) : text ≠ "[" ++ rest := by
  rintro rfl
  rw [String.toList_append] at plain
  exact (plain '[' (List.mem_append_left _ (by decide))).2.1 rfl

/-- **Which hosts have one key.** -/
theorem keyOf_eq_iff {h h' : Option Host} :
    keyOf h = keyOf h' ↔ h = h' ∨ SameGroup h h' ∨ Unknown h h' := by
  have hunknown : ∀ rest : String, "unknown" ≠ "[" ++ rest :=
    name_ne_bracket (List.all_iff_forall_prop.mp (by decide))
  cases h with
  | none =>
      cases h' with
      | none => simp
      | some host' =>
          cases host' with
          | name text' plain' =>
              rw [key_name plain', keyOf]
              simp [SameGroup, Unknown, eq_comm]
          | address text' colon' plain' =>
              rw [key_address colon' plain', keyOf]
              simp [SameGroup, Unknown, hunknown]
  | some host =>
      cases host with
      | name text plain =>
          rw [key_name plain]
          cases h' with
          | none => simp [keyOf, SameGroup, Unknown]
          | some host' =>
              cases host' with
              | name text' plain' =>
                  rw [key_name plain']
                  simp [SameGroup, Unknown]
              | address text' colon' plain' =>
                  rw [key_address colon' plain']
                  simp [SameGroup, Unknown, name_ne_bracket plain]
      | address text colon plain =>
          rw [key_address colon plain]
          cases h' with
          | none => simp [keyOf, SameGroup, Unknown, (hunknown _).symm]
          | some host' =>
              cases host' with
              | name text' plain' =>
                  rw [key_name plain']
                  simp [SameGroup, Unknown, (name_ne_bracket plain' _).symm]
              | address text' colon' plain' =>
                  rw [key_address colon' plain', String.append_right_inj]
                  simp only [Option.some.injEq, Host.address.injEq, SameGroup, Unknown, or_false]
                  exact ⟨.inr, fun h => h.elim (congrArg beforeColon) id⟩

/-- **When the keys separate hosts.**  For two requests, with ports or without, each of the key
functions gives one key exactly if they name one host, unless they name two IPv6 addresses that
start with the same group, or one names no host and the other the host `unknown`. -/
theorem perHost_keys_separate_iff {C : Crates} {req req' : Request C.http} {h h' : Option Host}
    (hreq : Named C req h) (hreq' : Named C req' h') :
    ∀ key ∈ perHostKeys C,
      ((key req = key req' ↔ h = h') ↔ ¬ (h ≠ h' ∧ SameGroup h h') ∧ ¬ Unknown h h') := by
  intro key hkey
  have hhost : key = hostKey C := by
    simp only [perHostKeys, List.mem_cons, List.not_mem_nil, or_false] at hkey
    rcases hkey with rfl | rfl | rfl | rfl <;> rfl
  have hne : Unknown h h' → h ≠ h' := by
    rintro hunknown rfl
    cases h with
    | none => exact hunknown
    | some host => cases host <;> exact hunknown
  rw [hhost, hostKey_eq_keyOf hreq, hostKey_eq_keyOf hreq', keyOf_eq_iff]
  tauto

/-- A request with a `Host` line. -/
def hostRequest (text : String) : Request Crates.ascii.http :=
  ⟨"GET", PlainUri.ofPath none "/", "HTTP/1.1", [("host", utf8 text)], none, [], emptyBody⟩

def exampleHost : Host := .name "example.com" (List.all_iff_forall_prop.mp (by decide))

def otherHost : Host := .name "other.com" (List.all_iff_forall_prop.mp (by decide))

/-- The keys of two names are different, with a port in one of the `Host` lines. -/
theorem perHost_keys_separate_names :
    Named .ascii (hostRequest "example.com:8080") (some exampleHost) ∧
      Named .ascii (hostRequest "other.com") (some otherHost) ∧
      ∀ key ∈ perHostKeys .ascii,
        (key (hostRequest "example.com:8080") = key (hostRequest "other.com") ↔
          some exampleHost = some otherHost) := by
  have hexample : Named .ascii (hostRequest "example.com:8080") (some exampleHost) :=
    ⟨some 8080, by decide +kernel⟩
  have hother : Named .ascii (hostRequest "other.com") (some otherHost) :=
    ⟨none, by decide +kernel⟩
  refine ⟨hexample, hother, fun key hkey => ?_⟩
  exact (perHost_keys_separate_iff hexample hother key hkey).mpr ⟨fun h => h.2, id⟩

def firstAddress : Host :=
  .address "2001:db8::1" (by decide) (List.all_iff_forall_prop.mp (by decide))

def secondAddress : Host :=
  .address "2001:db8::2" (by decide) (List.all_iff_forall_prop.mp (by decide))

/-- **Two hosts with one key.**  It is `[2001`, for both addresses. -/
theorem addresses_share_key :
    Named .ascii (hostRequest "[2001:db8::1]") (some firstAddress) ∧
      Named .ascii (hostRequest "[2001:db8::2]:443") (some secondAddress) ∧
      firstAddress ≠ secondAddress ∧
      ∀ key ∈ perHostKeys .ascii, key (hostRequest "[2001:db8::1]") = "[2001" ∧
        key (hostRequest "[2001:db8::2]:443") = "[2001" := by
  refine ⟨⟨none, by decide +kernel⟩, ⟨some 443, by decide +kernel⟩, ?_, by decide +kernel⟩
  rw [firstAddress, secondAddress, Ne, Host.address.injEq]
  decide

end Config
end Noxy
