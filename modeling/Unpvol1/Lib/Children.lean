import Mathlib.Algebra.GroupWithZero.Nat
import Mathlib.Algebra.Order.Group.Nat
import Mathlib.Data.List.Basic

/-!
# Lib.Children

The child processes of a process, each in the table from `fork` until it is waited for.

* `Status`        — a child runs, has a signal to die of, or has terminated.
* `mark`, `reap`  — what happens to one child, and `wait`.
* `work`          — how many steps the children are from being waited for, all of them.
-/

namespace Unpvol1
namespace Children

inductive Status where
  | running
  | dying
  | zombie
deriving DecidableEq

/-- The default action of a signal that terminates. -/
def Status.terminate : Status → Status
  | .running => .dying
  | x => x

def Status.work : Status → Nat
  | .running => 2
  | .dying => 2
  | .zombie => 1

abbrev Table := List (Nat × Status)

def pids (t : Table) : List Nat := t.map Prod.fst

def mark (pid : Nat) (f : Status → Status) (t : Table) : Table :=
  t.map fun x => if x.1 = pid then (x.1, f x.2) else x

def reap (pid : Nat) (t : Table) : Table := t.filter fun x => x.1 ≠ pid

def work (t : Table) : Nat := (t.map fun x => x.2.work).sum

section
variable {t : Table} {pid p : Nat} {f : Status → Status} {x : Status}

@[simp] theorem pids_append (t t' : Table) : pids (t ++ t') = pids t ++ pids t' :=
  List.map_append

@[simp] theorem pids_mark (pid : Nat) (f : Status → Status) (t : Table) :
    pids (mark pid f t) = pids t := by
  simp only [pids, mark, List.map_map]
  refine List.map_congr_left fun y _ => ?_
  simp only [Function.comp_apply]
  split
  · rfl
  · rfl

theorem mem_pids (h : (p, x) ∈ t) : p ∈ pids t := List.mem_map.mpr ⟨(p, x), h, rfl⟩

theorem mem_mark (h : (p, x) ∈ mark pid f t) :
    (p ≠ pid ∧ (p, x) ∈ t) ∨ (p = pid ∧ ∃ y, (p, y) ∈ t ∧ x = f y) := by
  obtain ⟨⟨q, y⟩, hy, heq⟩ := List.mem_map.mp h
  by_cases hq : q = pid
  · rw [if_pos hq] at heq
    obtain ⟨rfl, rfl⟩ := Prod.mk.inj heq
    exact .inr ⟨hq, y, hy, rfl⟩
  · rw [if_neg hq] at heq
    obtain ⟨rfl, rfl⟩ := Prod.mk.inj heq
    exact .inl ⟨hq, hy⟩

theorem mem_reap : (p, x) ∈ reap pid t ↔ (p, x) ∈ t ∧ p ≠ pid := by
  simp only [reap, List.mem_filter, ne_eq, decide_eq_true_eq]

theorem pids_reap_sublist (pid : Nat) (t : Table) : (pids (reap pid t)).Sublist (pids t) :=
  List.Sublist.map _ List.filter_sublist

theorem Status.work_pos (x : Status) : 0 < x.work := by
  cases x <;> decide

theorem Status.work_zombie_le (x : Status) : Status.zombie.work ≤ x.work := by
  cases x <;> decide

theorem Status.work_terminate (x : Status) : x.terminate.work = x.work := by
  cases x <;> rfl

theorem work_cons (y : Nat × Status) (t : Table) : work (y :: t) = y.2.work + work t := by
  simp only [work, List.map_cons, List.sum_cons]

theorem mark_cons (pid : Nat) (f : Status → Status) (y : Nat × Status) (t : Table) :
    mark pid f (y :: t) = (if y.1 = pid then (y.1, f y.2) else y) :: mark pid f t := rfl

theorem reap_cons (pid : Nat) (y : Nat × Status) (t : Table) :
    reap pid (y :: t) = if y.1 = pid then reap pid t else y :: reap pid t := by
  by_cases hy : y.1 = pid
  · simp only [reap, List.filter_cons, hy, ne_eq, not_true_eq_false, decide_false,
      Bool.false_eq_true, if_false, if_true]
  · simp only [reap, List.filter_cons, hy, ne_eq, not_false_eq_true, decide_true, if_true,
      if_false]

theorem work_mark_le (hf : ∀ y, (f y).work ≤ y.work) (t : Table) :
    work (mark pid f t) ≤ work t := by
  induction t with
  | nil => exact Nat.le_refl _
  | cons y t ih =>
    rw [mark_cons, work_cons, work_cons]
    refine Nat.add_le_add ?_ ih
    split
    · exact hf y.2
    · exact Nat.le_refl _

theorem work_mark_eq (hf : ∀ y, (f y).work = y.work) (t : Table) :
    work (mark pid f t) = work t := by
  induction t with
  | nil => rfl
  | cons y t ih =>
    rw [mark_cons, work_cons, work_cons, ih]
    split
    · rw [hf y.2]
    · rfl

theorem work_mark_lt (hf : ∀ y, (f y).work ≤ y.work) (h : (pid, x) ∈ t)
    (hx : (f x).work < x.work) : work (mark pid f t) < work t := by
  induction t with
  | nil => cases h
  | cons y t ih =>
    rw [mark_cons, work_cons, work_cons]
    rcases List.mem_cons.mp h with rfl | h
    · rw [if_pos rfl]
      exact Nat.add_lt_add_of_lt_of_le hx (work_mark_le hf t)
    · refine Nat.add_lt_add_of_le_of_lt ?_ (ih h)
      split
      · exact hf y.2
      · exact Nat.le_refl _

theorem work_le (t : Table) : work t ≤ 2 * (pids t).length := by
  induction t with
  | nil => exact Nat.le_refl _
  | cons y t ih =>
    have hy : y.2.work ≤ 2 := by
      cases y.2 <;> decide
    rw [work_cons]
    simp only [pids, List.map_cons, List.length_cons] at ih ⊢
    omega

theorem work_reap_le (pid : Nat) (t : Table) : work (reap pid t) ≤ work t := by
  induction t with
  | nil => exact Nat.le_refl _
  | cons y t ih =>
    rw [reap_cons, work_cons]
    split
    · exact ih.trans (Nat.le_add_left _ _)
    · rw [work_cons]
      exact Nat.add_le_add_left ih _

theorem work_reap_lt (h : (pid, x) ∈ t) : work (reap pid t) < work t := by
  induction t with
  | nil => cases h
  | cons y t ih =>
    have hy := Status.work_pos y.2
    have hle := work_reap_le pid t
    rw [reap_cons, work_cons]
    split
    · omega
    · rename_i hne
      rcases List.mem_cons.mp h with rfl | h
      · exact absurd rfl hne
      · rw [work_cons]
        exact Nat.add_lt_add_left (ih h) _

end

end Children
end Unpvol1
