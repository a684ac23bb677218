import Mathlib.Algebra.GroupWithZero.Nat
import Mathlib.Data.List.Basic

/-!
# Lib.Threads

Threads as a list of the places they are at.

* `count_move` — a thread that moves from one place to another changes how many are at each place
  by itself alone. `count_stay` — where the two places count alike, nothing changes.
* `forall_set`, `forall_get_set` — what is said of all threads after one of them has moved.
  `forall_stay`, `exists_stay` — where it is said of the two places alike.
-/

namespace Unpvol1
namespace Threads

section
variable {π : Type} {p : π → Bool} {P : π → Prop} {ts : List π} {i : Nat} {x y z : π}

theorem count_move (h : ts[i]? = some x) (y : π) :
    (ts.set i y).countP p + (if p x then 1 else 0) = ts.countP p + (if p y then 1 else 0) := by
  induction ts generalizing i with
  | nil => cases h
  | cons t ts ih =>
    cases i with
    | zero =>
      obtain rfl : t = x := by simpa using h
      simp only [List.set_cons_zero, List.countP_cons]
      omega
    | succ i =>
      have := ih (i := i) (by simpa using h)
      simp only [List.set_cons_succ, List.countP_cons]
      omega

theorem sum_move (f : π → Nat) (h : ts[i]? = some x) (y : π) :
    ((ts.set i y).map f).sum + f x = (ts.map f).sum + f y := by
  induction ts generalizing i with
  | nil => cases h
  | cons t ts ih =>
    cases i with
    | zero =>
      obtain rfl : t = x := by simpa using h
      simp only [List.set_cons_zero, List.map_cons, List.sum_cons]
      omega
    | succ i =>
      have := ih (i := i) (by simpa using h)
      simp only [List.set_cons_succ, List.map_cons, List.sum_cons]
      omega

theorem count_stay (h : ts[i]? = some x) (hp : p y = p x) :
    (ts.set i y).countP p = ts.countP p := by
  have := count_move (p := p) h y
  rw [hp] at this
  exact Nat.add_right_cancel this

/-- A thread that is not where another moves to was there before. -/
theorem mem_of_mem_set (hne : y ≠ z) (h : z ∈ ts.set i y) : z ∈ ts :=
  (List.mem_or_eq_of_mem_set h).resolve_right (Ne.symm hne)

theorem forall_set (h : ∀ z ∈ ts, P z) (hy : P y) : ∀ z ∈ ts.set i y, P z := by
  intro z hz
  rcases List.mem_or_eq_of_mem_set hz with hz | rfl
  · exact h z hz
  · exact hy

theorem forall_get_set {P : Nat → π → Prop} (h : ∀ j z, j ≠ i → ts[j]? = some z → P j z)
    (hy : P i y) : ∀ j z, (ts.set i y)[j]? = some z → P j z := by
  intro j z hj
  rw [List.getElem?_set] at hj
  split at hj
  · next hij =>
    subst hij
    split at hj
    · cases hj
      exact hy
    · cases hj
  · next hij => exact h j z (Ne.symm hij) hj

theorem forall_stay (h : ts[i]? = some x) (hP : P y ↔ P x) :
    (∀ z ∈ ts.set i y, P z) ↔ ∀ z ∈ ts, P z := by
  have hlt := (List.getElem?_eq_some_iff.mp h).1
  constructor
  · intro hall z hz
    obtain ⟨j, hj⟩ := List.getElem?_of_mem hz
    by_cases hij : i = j
    · subst hij
      obtain rfl : x = z := Option.some.inj (h.symm.trans hj)
      exact hP.mp (hall y (List.mem_of_getElem? (List.getElem?_set_self hlt)))
    · refine hall z (List.mem_of_getElem? (i := j) ?_)
      rw [List.getElem?_set_ne hij]
      exact hj
  · exact fun hall => forall_set hall (hP.mpr (hall x (List.mem_of_getElem? h)))

theorem exists_stay (h : ts[i]? = some x) (hP : P y ↔ P x) :
    (∃ z ∈ ts.set i y, P z) ↔ ∃ z ∈ ts, P z := by
  have hnot := forall_stay (P := fun z => ¬P z) h (not_congr hP)
  rw [← not_iff_not]
  simpa only [not_exists, not_and] using hnot

end

end Threads
end Unpvol1
