/-
# Maps in the order of insertion

A map whose entries stay in the order in which their keys came: setting the value of a key
that is there replaces it in place, and a new key goes to the end.  `OrderedMap.ofList` sets
the pairs of a list one after the other.

Everything is said by the entries of one key (`entriesOf`): setting a key leaves it with
exactly the new entry and the other keys with theirs, and in a map made from a list each
key has the last of its pairs (`entriesOf_ofList`).
-/

import Mathlib.Data.List.Induction
import Mathlib.Data.List.Nodup

namespace Noxy
namespace Lib

/-- Entries with distinct keys, in the order of insertion. -/
structure OrderedMap (α β : Type*) where
  entries : List (α × β)
  nodup : (entries.map Prod.fst).Nodup

namespace OrderedMap

variable {α β : Type*} [DecidableEq α]

/-- The empty map. -/
def empty : OrderedMap α β := ⟨[], List.nodup_nil⟩

/-- The entries with the value of a key replaced. -/
def replace (entries : List (α × β)) (a : α) (b : β) : List (α × β) :=
  entries.map fun e => if e.1 = a then (a, b) else e

theorem keys_replace (entries : List (α × β)) (a : α) (b : β) :
    (replace entries a b).map Prod.fst = entries.map Prod.fst := by
  rw [replace, List.map_map]
  refine List.map_congr_left fun e _ => ?_
  simp only [Function.comp_apply]
  split
  · rename_i h
    exact h.symm
  · rfl

/-- Set the value of a key. -/
def set (m : OrderedMap α β) (a : α) (b : β) : OrderedMap α β :=
  if h : a ∈ m.entries.map Prod.fst then
    ⟨replace m.entries a b, by rw [keys_replace]; exact m.nodup⟩
  else
    ⟨m.entries ++ [(a, b)], by
      rw [List.map_append, List.map_singleton, ← List.concat_eq_append]
      exact List.Nodup.concat h m.nodup⟩

/-- Set the pairs of a list, from the first to the last. -/
def ofList (pairs : List (α × β)) : OrderedMap α β :=
  pairs.foldl (fun m p => m.set p.1 p.2) empty

/-- The pairs of a key. -/
def entriesOf (pairs : List (α × β)) (a : α) : List (α × β) :=
  pairs.filter fun e => decide (e.1 = a)

omit [DecidableEq α] in
/-- A list with one pair of a key has no other. -/
theorem not_mem_keys_of_nodup_cons {e : α × β} {pairs : List (α × β)}
    (h : ((e :: pairs).map Prod.fst).Nodup) : ∀ e' ∈ pairs, e'.1 ≠ e.1 := by
  rw [List.map_cons, List.nodup_cons] at h
  exact fun e' he' heq => h.1 (heq ▸ List.mem_map_of_mem he')

theorem entriesOf_eq_nil {pairs : List (α × β)} {a : α} (h : ∀ e ∈ pairs, e.1 ≠ a) :
    entriesOf pairs a = [] :=
  List.filter_eq_nil_iff.mpr fun e he => by simpa using h e he

theorem entriesOf_replace_self {entries : List (α × β)} (hnodup : (entries.map Prod.fst).Nodup)
    {a : α} (ha : a ∈ entries.map Prod.fst) (b : β) :
    entriesOf (replace entries a b) a = [(a, b)] := by
  induction entries with
  | nil => cases ha
  | cons e entries ih =>
      have hother := not_mem_keys_of_nodup_cons hnodup
      have hnodup' : (entries.map Prod.fst).Nodup := (List.nodup_cons.mp hnodup).2
      by_cases he : e.1 = a
      · have hrest : entriesOf (replace entries a b) a = [] := by
          refine entriesOf_eq_nil fun e' he' => ?_
          have hkey : e'.1 ∈ (replace entries a b).map Prod.fst := List.mem_map_of_mem he'
          rw [keys_replace] at hkey
          obtain ⟨e'', he'', heq⟩ := List.mem_map.mp hkey
          rw [← heq, ← he]
          exact hother e'' he''
        change (((if e.1 = a then (a, b) else e) :: replace entries a b).filter _) = _
        rw [if_pos he, List.filter_cons_of_pos (by simp)]
        exact congrArg _ hrest
      · have ha' : a ∈ entries.map Prod.fst := by
          rcases List.mem_cons.mp ha with h | h
          · exact absurd h.symm he
          · exact h
        change (((if e.1 = a then (a, b) else e) :: replace entries a b).filter _) = _
        rw [if_neg he, List.filter_cons_of_neg (by simpa using he)]
        exact ih hnodup' ha'

theorem entriesOf_replace_ne (entries : List (α × β)) {a k : α} (hk : k ≠ a) (b : β) :
    entriesOf (replace entries a b) k = entriesOf entries k := by
  induction entries with
  | nil => rfl
  | cons e entries ih =>
      change (((if e.1 = a then (a, b) else e) :: replace entries a b).filter _) = _
      by_cases he : e.1 = a
      · have hek : ¬ e.1 = k := fun h => hk (h.symm.trans he)
        rw [if_pos he, List.filter_cons_of_neg (by simpa using Ne.symm hk), entriesOf,
          List.filter_cons_of_neg (by simpa using hek)]
        exact ih
      · rw [if_neg he, entriesOf, List.filter_cons, List.filter_cons]
        exact congrArg (fun l => if decide (e.1 = k) = true then e :: l else l) ih

/-- **A key that is set has the new entry.** -/
theorem entriesOf_set_self (m : OrderedMap α β) (a : α) (b : β) :
    entriesOf (m.set a b).entries a = [(a, b)] := by
  unfold set
  split
  · rename_i ha
    exact entriesOf_replace_self m.nodup ha b
  · rename_i ha
    have hnone : entriesOf m.entries a = [] :=
      entriesOf_eq_nil fun e he heq => ha (heq ▸ List.mem_map_of_mem he)
    rw [entriesOf] at hnone ⊢
    rw [List.filter_append, hnone]
    simp

/-- **The other keys keep theirs.** -/
theorem entriesOf_set_ne (m : OrderedMap α β) {a k : α} (hk : k ≠ a) (b : β) :
    entriesOf (m.set a b).entries k = entriesOf m.entries k := by
  unfold set
  split
  · exact entriesOf_replace_ne m.entries hk b
  · rw [entriesOf, List.filter_append]
    simp [entriesOf, Ne.symm hk]

/-- **The last pair of a key wins.** -/
theorem entriesOf_ofList (pairs : List (α × β)) (k : α) :
    entriesOf (ofList pairs).entries k = (entriesOf pairs k).getLast?.toList := by
  induction pairs using List.reverseRecOn with
  | nil => rfl
  | append_singleton pairs p ih =>
      have hset : ofList (pairs ++ [p]) = (ofList pairs).set p.1 p.2 := by
        rw [ofList, List.foldl_append]
        rfl
      rw [hset]
      by_cases hk : k = p.1
      · subst hk
        rw [entriesOf_set_self, entriesOf, List.filter_append]
        simp
      · rw [entriesOf_set_ne _ hk, ih, entriesOf, entriesOf, List.filter_append]
        simp [Ne.symm hk]

/-- A map made from a list has no other entries. -/
theorem mem_of_mem_ofList {pairs : List (α × β)} {p : α × β} (hp : p ∈ (ofList pairs).entries) :
    p ∈ pairs := by
  have hof : p ∈ entriesOf (ofList pairs).entries p.1 :=
    List.mem_filter.mpr ⟨hp, decide_eq_true rfl⟩
  rw [entriesOf_ofList, Option.mem_toList] at hof
  exact (List.mem_filter.mp (List.mem_of_getLast? hof)).1

end OrderedMap
end Lib
end Noxy
