import Mathlib.Data.List.Basic

/-!
# Lib.Substring

Where a word first begins in a text.

* `findSub` — the search from the front.
* `findSub_here`, `findSub_past`, `findSub_skip` — it steps over what cannot begin the word.
* `findSub_bound` — the word lies within the text.
-/

namespace Unpvol1

variable {α : Type} [DecidableEq α]

def findSub (word : List α) : List α → Option Nat
  | [] => if word = [] then some 0 else none
  | b :: l => if word <+: b :: l then some 0 else (findSub word l).map (· + 1)

section Find

variable {word l a : List α} {c : α} {k : Nat}

theorem findSub_here (h : word <+: l) : findSub word l = some 0 := by
  cases l with
  | nil => exact if_pos (List.prefix_nil.mp h)
  | cons b l => exact if_pos h

/-- The first letter is there and the rest of the word is not. -/
theorem findSub_past (h : ¬ word <+: l) :
    findSub (c :: word) (c :: l) = (findSub (c :: word) l).map (· + 1) :=
  if_neg fun hp => h ((List.prefix_cons_inj c).mp hp)

/-- Text without the first letter is stepped over. -/
theorem findSub_skip (ha : c ∉ a) (l : List α) :
    findSub (c :: word) (a ++ l) = (findSub (c :: word) l).map (a.length + ·) := by
  induction a with
  | nil => simp
  | cons b a ih =>
    have hb : c ≠ b := List.ne_of_not_mem_cons ha
    have ha : c ∉ a := List.not_mem_of_not_mem_cons ha
    have hno : ¬ c :: word <+: b :: (a ++ l) := fun hp => hb (List.cons_prefix_cons.mp hp).1
    rw [List.cons_append, findSub, if_neg hno, ih ha, Option.map_map, List.length_cons]
    congr 1
    funext n
    simp only [Function.comp_apply]
    omega

theorem findSub_of_not_mem (h : c ∉ l) : findSub (c :: word) l = none := by
  have hskip : findSub (c :: word) (l ++ []) = (findSub (c :: word) []).map (l.length + ·) :=
    findSub_skip h []
  rw [List.append_nil] at hskip
  exact hskip

theorem findSub_bound (h : findSub word l = some k) : k + word.length ≤ l.length := by
  induction l generalizing k with
  | nil =>
    simp only [findSub] at h
    split at h
    · rename_i hnil
      cases h
      rw [hnil]
      exact Nat.le_refl _
    · cases h
  | cons b l ih =>
    simp only [findSub] at h
    split at h
    · rename_i hpre
      cases h
      rw [Nat.zero_add]
      exact hpre.length_le
    · obtain ⟨j, hj, rfl⟩ := Option.map_eq_some_iff.mp h
      have hle := ih hj
      rw [List.length_cons]
      omega

end Find
end Unpvol1
