/-
# A hash map with an unspecified iteration order

A map is an association list without repeated keys (`AList`).  Nothing may
depend on the order the entries are stored in, so every operation that walks
the map takes an `IterOrder`: a function that hands the entries out in some
order, of which only that it is a permutation is known.  A theorem about a
program that iterates over such a map is then a theorem about every order.

`retain` keeps the entries that satisfy a test, and `removeMin` removes the
first entry of least rank among the candidates, in the order of the iteration.
What a lookup sees after either is `lookup_retain` for the first, and for the
second that it either leaves a key alone or drops an entry that was a candidate
(`lookup_removeMin`).  How many entries there are afterwards is said for
`removeMin` and `insert`.
-/

import Mathlib.Data.Finset.Card
import Mathlib.Data.List.AList
import Mathlib.Data.List.MinMax

namespace Noxy
namespace Lib

/-- A hash map from `κ` to `α`. -/
abbrev HashMap (κ α : Type*) := AList (fun _ : κ => α)

/-- The order a hash map hands its entries out in.  Only that every entry comes
out once is known. -/
structure IterOrder (κ α : Type*) where
  order : List ((_ : κ) × α) → List ((_ : κ) × α)
  perm : ∀ l, (order l).Perm l

/-- The order the entries are stored in. -/
def IterOrder.stored {κ α : Type*} : IterOrder κ α := ⟨id, fun _ => List.Perm.refl _⟩

namespace HashMap

variable {κ α β : Type*} [DecidableEq κ]

/-- The number of entries. -/
def len (m : HashMap κ α) : ℕ := m.entries.length

/-- Keep the entries that satisfy `p`. -/
def retain (p : κ → α → Bool) (m : HashMap κ α) : HashMap κ α :=
  ⟨m.entries.filter fun e => p e.1 e.2, m.nodupKeys.sublist List.filter_sublist⟩

/-- The key of the first candidate of least rank, in the order of the iteration. -/
def minKey [Preorder β] [DecidableLT β] (o : IterOrder κ α) (candidate : α → Bool) (rank : α → β)
    (m : HashMap κ α) : Option κ :=
  (((o.order m.entries).filter fun e => candidate e.2).argmin fun e => rank e.2).map Sigma.fst

/-- Remove the first candidate of least rank, if there is a candidate. -/
def removeMin [Preorder β] [DecidableLT β] (o : IterOrder κ α) (candidate : α → Bool)
    (rank : α → β) (m : HashMap κ α) : HashMap κ α :=
  match minKey o candidate rank m with
  | some key => m.erase key
  | none => m

theorem mem_entries_iff {m : HashMap κ α} {k : κ} {a : α} :
    (⟨k, a⟩ : (_ : κ) × α) ∈ m.entries ↔ m.lookup k = some a :=
  (List.mem_dlookup_iff m.nodupKeys).symm

/-- **What `retain` keeps.**  A lookup finds the old value if it satisfies the
test, and nothing otherwise. -/
theorem lookup_retain (p : κ → α → Bool) (m : HashMap κ α) (k : κ) :
    (m.retain p).lookup k = (m.lookup k).filter (p k) := by
  apply Option.ext
  intro a
  have h : (⟨k, a⟩ : (_ : κ) × α) ∈ (m.retain p).entries ↔
      (⟨k, a⟩ : (_ : κ) × α) ∈ m.entries ∧ p k a = true := by
    simp only [retain, List.mem_filter]
  rw [← mem_entries_iff, h, mem_entries_iff, Option.filter_eq_some_iff]

/-- The key that `removeMin` picks holds a candidate. -/
theorem minKey_candidate [LinearOrder β] {o : IterOrder κ α} {candidate : α → Bool}
    {rank : α → β} {m : HashMap κ α} {key : κ} (h : minKey o candidate rank m = some key) :
    ∃ a, m.lookup key = some a ∧ candidate a = true := by
  obtain ⟨e, he, rfl⟩ := Option.map_eq_some_iff.mp h
  obtain ⟨hmem, hc⟩ := List.mem_filter.mp (List.argmin_mem he)
  exact ⟨e.2, mem_entries_iff.mp ((o.perm _).mem_iff.mp hmem), hc⟩

/-- **What `removeMin` drops.**  A lookup finds what it found before, unless the
old value was a candidate. -/
theorem lookup_removeMin [LinearOrder β] (o : IterOrder κ α) (candidate : α → Bool)
    (rank : α → β) (m : HashMap κ α) (k : κ) :
    (m.removeMin o candidate rank).lookup k = m.lookup k ∨
      (m.removeMin o candidate rank).lookup k = none ∧
        ∃ a, m.lookup k = some a ∧ candidate a = true := by
  unfold removeMin
  cases h : minKey o candidate rank m with
  | none => exact Or.inl rfl
  | some key =>
      obtain ⟨a, ha, hc⟩ := minKey_candidate h
      by_cases hk : k = key
      · subst hk
        exact Or.inr ⟨AList.lookup_erase k m, a, ha, hc⟩
      · exact Or.inl (AList.lookup_erase_ne hk)

/-! ### How many entries there are -/

omit [DecidableEq κ] in
theorem len_eq_length_keys (m : HashMap κ α) : m.len = m.keys.length :=
  (List.length_map _).symm

theorem len_insert_of_mem {m : HashMap κ α} {k : κ} (h : k ∈ m) (a : α) :
    len (m.insert k a) = m.len := by
  have hpos : 0 < m.keys.length := List.length_pos_of_mem (AList.mem_keys.mpr h)
  rw [len_eq_length_keys, len_eq_length_keys, AList.keys_insert, List.length_cons,
    List.length_erase_of_mem (AList.mem_keys.mpr h)]
  omega

theorem len_insert_of_notMem {m : HashMap κ α} {k : κ} (h : k ∉ m) (a : α) :
    len (m.insert k a) = m.len + 1 := by
  rw [len, AList.entries_insert_of_notMem h, List.length_cons, len]

theorem len_insert_le (m : HashMap κ α) (k : κ) (a : α) : len (m.insert k a) ≤ m.len + 1 := by
  by_cases h : k ∈ m
  · rw [len_insert_of_mem h]
    exact Nat.le_succ _
  · rw [len_insert_of_notMem h]

/-- **What `removeMin` leaves**: one entry less, or all of them, if none is a candidate. -/
theorem len_removeMin [LinearOrder β] (o : IterOrder κ α) (candidate : α → Bool) (rank : α → β)
    (m : HashMap κ α) :
    (m.removeMin o candidate rank).len + 1 = m.len ∨
      m.removeMin o candidate rank = m ∧
        ∀ k a, m.lookup k = some a → candidate a = false := by
  unfold removeMin
  cases h : minKey o candidate rank m with
  | none =>
      refine Or.inr ⟨rfl, fun k a hk => ?_⟩
      have hnil := List.argmin_eq_none.mp (Option.map_eq_none_iff.mp h)
      have hmem := (o.perm _).mem_iff.mpr (mem_entries_iff.mpr hk)
      simpa using List.filter_eq_nil_iff.mp hnil _ hmem
  | some key =>
      obtain ⟨a, ha, _⟩ := minKey_candidate h
      have hkey : key ∈ m.keys :=
        AList.mem_keys.mpr (AList.lookup_isSome.mp (by rw [ha]; rfl))
      have hpos : 0 < m.keys.length := List.length_pos_of_mem hkey
      left
      show len (m.erase key) + 1 = m.len
      rw [len_eq_length_keys, len_eq_length_keys, AList.keys_erase, List.length_erase_of_mem hkey]
      omega

/-- A map has at most as many entries as there are keys to choose from. -/
theorem len_le_card {m : HashMap κ α} {keys : Finset κ} (h : ∀ k ∈ m, k ∈ keys) :
    m.len ≤ keys.card := by
  have hcard : m.keys.toFinset.card = m.len := by
    rw [List.toFinset_card_of_nodup m.keys_nodup, len_eq_length_keys]
  rw [← hcard]
  exact Finset.card_le_card fun k hk => h k (AList.mem_keys.mp (List.mem_toFinset.mp hk))

end HashMap
end Lib
end Noxy
