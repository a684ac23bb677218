import Mathlib.Data.List.Basic

/-!
# Lib.Mutex

A lock with one owner, and threads as a list of the places they are at. `p` tells the places inside
the critical section.

* `Guards p owner ts` — whoever is inside is the owner, so no two are (`Guards.unique`).
* `acquire`, `release`, `stay`, `clear` — the moves that keep it.
* `perm_move` — what a thread carries when it moves, for the list of what all of them carry.
-/

namespace Unpvol1
namespace Mutex

section
variable {π α : Type} {p : π → Bool} {owner : Option Nat} {ts : List π} {i j : Nat} {x y : π}

def Guards (p : π → Bool) (owner : Option Nat) (ts : List π) : Prop :=
  ∀ (i : Nat) (x : π), ts[i]? = some x → p x = true → owner = some i

theorem Guards.unique (h : Guards p owner ts) (hi : ts[i]? = some x) (hj : ts[j]? = some y)
    (hx : p x = true) (hy : p y = true) : i = j :=
  Option.some.inj ((h i x hi hx).symm.trans (h j y hj hy))

/-- With the lock free nobody is inside. -/
theorem Guards.outside (h : Guards p none ts) (hi : ts[i]? = some x) : p x = false := by
  cases hx : p x with
  | false => rfl
  | true => cases h i x hi hx

theorem getElem?_set_cases (h : (ts.set i y)[j]? = some x) :
    (j = i ∧ x = y) ∨ (j ≠ i ∧ ts[j]? = some x) := by
  rw [List.getElem?_set] at h
  split at h
  · rename_i hij
    split at h
    · exact .inl ⟨hij.symm, (Option.some.inj h).symm⟩
    · cases h
  · rename_i hij
    exact .inr ⟨fun he => hij he.symm, h⟩

/-- A thread moves to `y` with the owner as it is: inside only if it owns the lock. -/
theorem Guards.stay (h : Guards p owner ts) (hy : p y = true → owner = some i) :
    Guards p owner (ts.set i y) := by
  intro j x hj hx
  obtain ⟨rfl, rfl⟩ | ⟨_, hj⟩ := getElem?_set_cases hj
  · exact hy hx
  · exact h j x hj hx

theorem Guards.acquire (h : Guards p none ts) (i : Nat) (y : π) :
    Guards p (some i) (ts.set i y) := by
  intro j x hj hx
  obtain ⟨rfl, rfl⟩ | ⟨_, hj⟩ := getElem?_set_cases hj
  · rfl
  · cases h j x hj hx

theorem Guards.release (h : Guards p (some i) ts) (hy : p y = false) :
    Guards p none (ts.set i y) := by
  intro j x hj hx
  obtain ⟨rfl, rfl⟩ | ⟨hne, hj⟩ := getElem?_set_cases hj
  · rw [hy] at hx
    cases hx
  · exact absurd (Option.some.inj (h j x hj hx)).symm hne

theorem Guards.clear (owner : Option Nat) (ts : List π) (hall : ∀ x ∈ ts, p x = false) :
    Guards p owner ts := by
  intro i x hi hx
  rw [hall x (List.mem_of_getElem? hi)] at hx
  cases hx

/-- The threads together carry what they did, but for what the one that moves puts down and takes
up. -/
theorem perm_move (f : π → List α) (h : ts[i]? = some x) (y : π) :
    ((ts.set i y).flatMap f ++ f x).Perm (ts.flatMap f ++ f y) := by
  induction ts generalizing i with
  | nil => cases h
  | cons t ts ih =>
    cases i with
    | zero =>
      obtain rfl : t = x := by simpa using h
      simp only [List.set_cons_zero, List.flatMap_cons, List.append_assoc]
      refine List.perm_append_comm.trans ?_
      rw [← List.append_assoc]
      exact List.perm_append_comm.append_right (f y)
    | succ i =>
      have := ih (i := i) (by simpa using h)
      simp only [List.set_cons_succ, List.flatMap_cons, List.append_assoc]
      exact this.append_left (f t)

end

end Mutex
end Unpvol1
