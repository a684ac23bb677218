import Std.Data.TreeMap.Lemmas
import Mathlib.Data.List.Pairwise

/-!
# Lib.StdMap

The C++ `std::map` as a `TreeMap`, through lookups. `insert` is `insertIfNew`: it does not overwrite
an existing key. `begin()` is the head of `toList`, and `map[ k ]` on a missing key inserts a
default.
-/

namespace Unpvol1

abbrev StdMap (κ α : Type) [Ord κ] := Std.TreeMap κ α

namespace StdMap

variable {κ α : Type} [Ord κ] [Std.TransOrd κ]

theorem get_eq_none_iff {m : StdMap κ α} {k : κ} : m[k]? = none ↔ k ∉ m := by
  rw [Std.TreeMap.mem_iff_isSome_getElem?]
  simp

theorem mem_of_get {m : StdMap κ α} {k : κ} {w : α} (h : m[k]? = some w) : k ∈ m := by
  rw [Std.TreeMap.mem_iff_isSome_getElem?, h]
  rfl

theorem size_insert {m : StdMap κ α} {k : κ} (v : α) (h : m[k]? = none) :
    (m.insertIfNew k v).size = m.size + 1 := by
  rw [Std.TreeMap.size_insertIfNew, if_neg (get_eq_none_iff.mp h)]

theorem size_erase_of_some {m : StdMap κ α} {k : κ} {w : α} (h : m[k]? = some w) :
    (m.erase k).size + 1 = m.size := by
  have hmem := mem_of_get h
  have hpos : 0 < m.size := by
    rcases Nat.eq_zero_or_pos m.size with h0 | h0
    · have hemp : m.isEmpty = true := by rw [Std.TreeMap.isEmpty_eq_size_eq_zero]; simpa using h0
      exact absurd hmem (Std.TreeMap.not_mem_of_isEmpty hemp)
    · exact h0
  rw [Std.TreeMap.size_erase, if_pos (Std.TreeMap.contains_iff_mem.mpr hmem)]
  omega

variable [Std.LawfulEqOrd κ]

section
variable [DecidableEq κ]

theorem insert_get (m : StdMap κ α) (k : κ) (v : α) (a : κ) :
    (m.insertIfNew k v)[a]? = if k = a ∧ m[k]? = none then some v else m[a]? := by
  rw [Std.TreeMap.getElem?_insertIfNew]
  simp only [Std.LawfulEqCmp.compare_eq_iff_eq, get_eq_none_iff]

theorem insert_get_self {m : StdMap κ α} {k : κ} (v : α) (h : m[k]? = none) :
    (m.insertIfNew k v)[k]? = some v := by
  rw [insert_get, if_pos ⟨rfl, h⟩]

theorem insert_get_of_ne (m : StdMap κ α) {k a : κ} (v : α) (h : a ≠ k) :
    (m.insertIfNew k v)[a]? = m[a]? := by
  simp [insert_get, Ne.symm h]

theorem insert_get_of_some {m : StdMap κ α} {k a : κ} (v : α) {w : α} (h : m[k]? = some w) :
    (m.insertIfNew k v)[a]? = m[a]? := by
  simp [insert_get, h]

/-- A value found after an `insert` was there before or is the one inserted. -/
theorem insert_get_cases {m : StdMap κ α} {k a : κ} {v w : α}
    (h : (m.insertIfNew k v)[a]? = some w) :
    m[a]? = some w ∨ (a = k ∧ w = v ∧ m[k]? = none) := by
  rw [insert_get] at h
  split at h
  · rename_i hk
    exact .inr ⟨hk.1.symm, (Option.some.inj h).symm, hk.2⟩
  · exact .inl h

theorem erase_get (m : StdMap κ α) (k a : κ) :
    (m.erase k)[a]? = if k = a then none else m[a]? := by
  rw [Std.TreeMap.getElem?_erase]
  simp only [Std.LawfulEqCmp.compare_eq_iff_eq]

theorem erase_get_of_ne (m : StdMap κ α) {k a : κ} (h : a ≠ k) : (m.erase k)[a]? = m[a]? := by
  simp [erase_get, Ne.symm h]

theorem get_of_erase_get {m : StdMap κ α} {k a : κ} {w : α} (h : (m.erase k)[a]? = some w) :
    a ≠ k ∧ m[a]? = some w := by
  rw [erase_get] at h
  split at h
  · cases h
  · rename_i hk
    exact ⟨Ne.symm hk, h⟩

end

theorem mem_toList {m : StdMap κ α} {k : κ} {v : α} : (k, v) ∈ m.toList ↔ m[k]? = some v :=
  Std.TreeMap.mem_toList_iff_getElem?_eq_some

/-- The entries have distinct keys. -/
theorem toList_keys (m : StdMap κ α) : m.toList.Pairwise (fun a b => a.1 ≠ b.1) := by
  refine Std.TreeMap.distinct_keys_toList.imp fun {a b} h => ?_
  rwa [Std.LawfulEqCmp.compare_eq_iff_eq] at h

end StdMap
end Unpvol1
