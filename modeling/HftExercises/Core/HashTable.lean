import Mathlib.Data.List.AList

/-! # Unordered tables

A table is an association list with distinct keys; nothing proved about it
depends on the order of its entries. This adds the operation association lists
lack here, erasing in one pass every entry that fails a test, and the inversion
of a lookup after an insert or an erase.
-/
namespace HftExercises
variable {K V : Type*}

def keepEntries (p : V → Bool) (m : AList (fun _ : K => V)) : AList (fun _ : K => V) :=
  ⟨m.entries.filter (fun e => p e.2), m.nodupKeys.sublist List.filter_sublist⟩

theorem lookup_keepEntries [DecidableEq K] {p : V → Bool} {m : AList (fun _ : K => V)} {k : K}
    {v : V} : (keepEntries p m).lookup k = some v ↔ m.lookup k = some v ∧ p v = true := by
  have hk := AList.mem_lookup_iff (s := keepEntries p m) (a := k) (b := v)
  have hm := AList.mem_lookup_iff (s := m) (a := k) (b := v)
  rw [Option.mem_def] at hk hm
  rw [hk, hm]
  exact List.mem_filter

theorem lookup_insert_eq_some [DecidableEq K] {m : AList (fun _ : K => V)} {k k' : K} {v w : V}
    (h : (m.insert k v).lookup k' = some w) :
    (k' = k ∧ w = v) ∨ (k' ≠ k ∧ m.lookup k' = some w) := by
  by_cases hk : k' = k
  · rw [hk, AList.lookup_insert] at h
    exact Or.inl ⟨hk, (Option.some.inj h).symm⟩
  · rw [AList.lookup_insert_ne hk] at h
    exact Or.inr ⟨hk, h⟩

theorem lookup_of_lookup_erase [DecidableEq K] {m : AList (fun _ : K => V)} {k k' : K} {v : V}
    (h : (m.erase k).lookup k' = some v) : m.lookup k' = some v := by
  by_cases hk : k' = k
  · rw [hk, AList.lookup_erase] at h
    cases h
  · rwa [AList.lookup_erase_ne hk] at h

end HftExercises
