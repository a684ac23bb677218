import Mathlib.Data.List.Perm.Basic
import Mathlib.Data.List.Nodup
import Mathlib.Logic.Equiv.Basic

/-!
# Lib.Slots

The elements in the first slots of an array, the array being a function on indices.

* `contents v n`     — the elements of the slots below `n`.
* `contents_swap`    — a swap keeps them, in another order.
* `contents_replace` — moving the last one over another takes that other one out.
-/

namespace Unpvol1
namespace Slots

section
variable {α : Type}

def swap (v : Nat → α) (i j : Nat) : Nat → α := fun k => v (Equiv.swap i j k)

def contents (v : Nat → α) (n : Nat) : List α := (List.range n).map v

@[simp] theorem swap_left (v : Nat → α) (i j : Nat) : swap v i j i = v j := by simp [swap]

@[simp] theorem swap_right (v : Nat → α) (i j : Nat) : swap v i j j = v i := by simp [swap]

theorem swap_other (v : Nat → α) {i j k : Nat} (hi : k ≠ i) (hj : k ≠ j) :
    swap v i j k = v k := by simp [swap, Equiv.swap_apply_of_ne_of_ne hi hj]

theorem mem_contents {v : Nat → α} {n : Nat} {x : α} : x ∈ contents v n ↔ ∃ i < n, v i = x := by
  simp [contents]

theorem contents_congr {v v' : Nat → α} {n : Nat} (h : ∀ i < n, v' i = v i) :
    contents v' n = contents v n :=
  List.map_congr_left fun i hi => h i (List.mem_range.mp hi)

theorem contents_succ (v : Nat → α) (n : Nat) : contents v (n + 1) = contents v n ++ [v n] := by
  simp [contents, List.range_succ]

theorem contents_swap (v : Nat → α) {n i j : Nat} (hi : i < n) (hj : j < n) :
    (contents (swap v i j) n).Perm (contents v n) := by
  have hperm : ((List.range n).map (Equiv.swap i j)).Perm (List.range n) := by
    refine (List.perm_ext_iff_of_nodup ?_ List.nodup_range).mpr ?_
    · exact List.nodup_range.map (Equiv.swap i j).injective
    · intro k
      simp only [List.mem_map, List.mem_range]
      constructor
      · rintro ⟨l, hl, rfl⟩
        rw [Equiv.swap_apply_def]
        split_ifs <;> assumption
      · intro hk
        refine ⟨Equiv.swap i j k, ?_, by simp⟩
        rw [Equiv.swap_apply_def]
        split_ifs <;> assumption
  have hmap : contents (swap v i j) n = ((List.range n).map (Equiv.swap i j)).map v := by
    simp [contents, swap]
  rw [hmap]
  exact hperm.map v

/-- Putting the last element in place of the one at `i` and giving up the last place takes the
element at `i` out. -/
theorem contents_replace (v : Nat → α) {i n : Nat} (hi : i ≤ n) :
    (contents v (n + 1)).Perm (v i :: contents (Function.update v i (v n)) n) := by
  have hlast : contents (swap v i n) (n + 1) =
      contents (Function.update v i (v n)) n ++ [v i] := by
    rw [contents_succ, swap_right]
    congr 1
    refine contents_congr fun k hk => ?_
    by_cases hki : k = i
    · subst hki
      simp
    · rw [swap_other v hki (by omega), Function.update_of_ne hki]
  have hswap := contents_swap v (Nat.lt_succ_of_le hi) (Nat.lt_succ_self n)
  rw [hlast] at hswap
  exact hswap.symm.trans (List.perm_append_singleton _ _)

theorem contents_cons (v : Nat → α) (n : Nat) :
    contents v (n + 1) = v 0 :: contents (fun k => v (k + 1)) n := by
  simp [contents, List.range_succ_eq_map, Function.comp_def]

end

end Slots
end Unpvol1
