import Mathlib.Logic.Function.Basic
import Mathlib.Order.Defs.LinearOrder
import Mathlib.Order.Lattice
import Unpvol1.Lib.Slots

/-!
# Lib.BinHeap

Binary heaps in the first `n` places of an array, smallest key at place 0. An array is a function
on its indices, so that a place past the end can be written before the heap grows over it.

* `Ordered f v n`   — no place has a smaller key than its parent.
* `siftUp`, `siftDown` — swap the element at a place up, or down, until it is in order.
* `siftUp_ordered`, `siftDown_ordered` — they restore the order where only that element breaks it;
  `siftUp_perm`, `siftDown_perm` — and move the elements about, no more.
* `heapify`         — `siftDown` at one place after the other, towards the root: `heapify_ordered`
  needs the places it starts above to be in order already.
-/

namespace Unpvol1
namespace BinHeap

open Slots

section
variable {α κ : Type} [LinearOrder κ] {f : α → κ}

def parent (i : Nat) : Nat := (i - 1) / 2

def Ordered (f : α → κ) (v : Nat → α) (n : Nat) : Prop :=
  ∀ i, 0 < i → i < n → f (v (parent i)) ≤ f (v i)

theorem parent_lt {i : Nat} (h : i ≠ 0) : parent i < i := by
  unfold parent
  omega

def siftUp (f : α → κ) (v : Nat → α) (i : Nat) : Nat → α :=
  if _h : i = 0 then v
  else if f (v (parent i)) ≤ f (v i) then v
  else siftUp f (swap v i (parent i)) (parent i)
termination_by i
decreasing_by exact parent_lt _h

/-- The child of `i` with the smaller key, the left one when they are level. -/
def child (f : α → κ) (v : Nat → α) (n i : Nat) : Nat :=
  if i * 2 + 2 < n ∧ f (v (i * 2 + 2)) < f (v (i * 2 + 1)) then i * 2 + 2 else i * 2 + 1

theorem child_cases (f : α → κ) (v : Nat → α) {n i : Nat} (h : i * 2 + 1 < n) :
    i < child f v n i ∧ child f v n i < n ∧ parent (child f v n i) = i := by
  unfold child parent
  split <;> omega

def siftDown (f : α → κ) (v : Nat → α) (n i : Nat) : Nat → α :=
  if _h : i * 2 + 1 < n then
    if f (v (child f v n i)) < f (v i) then
      siftDown f (swap v i (child f v n i)) n (child f v n i)
    else v
  else v
termination_by n - i
decreasing_by
  have := child_cases f v _h
  omega

/-! ## Moving elements only -/

theorem siftUp_perm (v : Nat → α) {n i : Nat} (hi : i < n) :
    (contents (siftUp f v i) n).Perm (contents v n) := by
  induction v, i using siftUp.induct (f := f) with
  | case1 v => rw [siftUp, dif_pos rfl]
  | case2 v i h hle => rw [siftUp, dif_neg h, if_pos hle]
  | case3 v i h hle ih =>
    rw [siftUp, dif_neg h, if_neg hle]
    have hp : parent i < n := Nat.lt_trans (parent_lt h) hi
    exact (ih hp).trans (contents_swap v hi hp)

theorem siftDown_perm (v : Nat → α) (n : Nat) {i : Nat} :
    (contents (siftDown f v n i) n).Perm (contents v n) := by
  induction v, i using siftDown.induct (f := f) (n := n) with
  | case1 v i h hlt ih =>
    rw [siftDown, dif_pos h, if_pos hlt]
    have hc := child_cases f v h
    exact ih.trans (contents_swap v (by omega) hc.2.1)
  | case2 v i h hlt => rw [siftDown, dif_pos h, if_neg hlt]
  | case3 v i h => rw [siftDown, dif_neg h]

/-! ## Restoring the order -/

/-- Only the element at `i` may be smaller than its parent. -/
structure UpReady (f : α → κ) (v : Nat → α) (n i : Nat) : Prop where
  others : ∀ k, 0 < k → k < n → k ≠ i → f (v (parent k)) ≤ f (v k)
  below : ∀ k, 0 < i → k < n → 0 < k → parent k = i → f (v (parent i)) ≤ f (v k)

/-- Only the element at `i` may be greater than its children. -/
structure DownReady (f : α → κ) (v : Nat → α) (n i : Nat) : Prop where
  others : ∀ k, 0 < k → k < n → parent k ≠ i → f (v (parent k)) ≤ f (v k)
  below : ∀ k, 0 < i → k < n → 0 < k → parent k = i → f (v (parent i)) ≤ f (v k)

/-- The places from `lo` on are in order with their children. -/
def OrderedFrom (f : α → κ) (v : Nat → α) (n lo : Nat) : Prop :=
  ∀ k, 0 < k → k < n → lo ≤ parent k → f (v (parent k)) ≤ f (v k)

/-- Of the places from `lo` on, only the element at `i` may be greater than its children. -/
structure DownReadyFrom (f : α → κ) (v : Nat → α) (n lo i : Nat) : Prop where
  others : ∀ k, 0 < k → k < n → lo ≤ parent k → parent k ≠ i → f (v (parent k)) ≤ f (v k)
  below : ∀ k, 0 < i → lo ≤ parent i → k < n → 0 < k → parent k = i →
    f (v (parent i)) ≤ f (v k)

theorem UpReady.move {v : Nat → α} {n i : Nat} (h : UpReady f v n i) (hi : i < n) (hne : i ≠ 0)
    (hlt : f (v i) < f (v (parent i))) : UpReady f (swap v i (parent i)) n (parent i) := by
  have hp := parent_lt hne
  constructor
  · intro k hk0 hkn hkp
    by_cases hki : k = i
    · subst hki
      simpa using le_of_lt hlt
    · rw [swap_other v hki hkp]
      by_cases hpk : parent k = i
      · rw [hpk, swap_left]
        exact h.below k (by omega) hkn hk0 hpk
      · by_cases hpp : parent k = parent i
        · rw [hpp, swap_right]
          have := h.others k hk0 hkn hki
          rw [hpp] at this
          exact le_trans (le_of_lt hlt) this
        · rw [swap_other v hpk hpp]
          exact h.others k hk0 hkn hki
  · intro k hp0 hkn hk0 hpk
    have hpp := parent_lt (Nat.ne_of_gt hp0)
    have hup : f (v (parent (parent i))) ≤ f (v (parent i)) :=
      h.others (parent i) hp0 (by omega) (by omega)
    rw [swap_other v (by omega) (by omega)]
    by_cases hki : k = i
    · subst hki
      simpa using hup
    · have hkp := parent_lt (Nat.ne_of_gt hk0)
      rw [swap_other v hki (by omega)]
      have := h.others k hk0 hkn hki
      rw [hpk] at this
      exact le_trans hup this

theorem siftUp_ordered {v : Nat → α} {n i : Nat} (h : UpReady f v n i) (hi : i < n) :
    Ordered f (siftUp f v i) n := by
  induction v, i using siftUp.induct (f := f) with
  | case1 v =>
    rw [siftUp, dif_pos rfl]
    intro k hk0 hkn
    exact h.others k hk0 hkn (by omega)
  | case2 v i hne hle =>
    rw [siftUp, dif_neg hne, if_pos hle]
    intro k hk0 hkn
    by_cases hki : k = i
    · rw [hki]
      exact hle
    · exact h.others k hk0 hkn hki
  | case3 v i hne hle ih =>
    rw [siftUp, dif_neg hne, if_neg hle]
    exact ih (h.move hi hne (not_le.mp hle)) (Nat.lt_trans (parent_lt hne) hi)

theorem child_le {v : Nat → α} {n i k : Nat} (hk0 : 0 < k) (hkn : k < n) (hk : parent k = i) :
    f (v (child f v n i)) ≤ f (v k) := by
  have hcases : k = i * 2 + 1 ∨ k = i * 2 + 2 := by
    unfold parent at hk
    omega
  unfold child
  split
  · rename_i h
    rcases hcases with rfl | rfl
    · exact le_of_lt h.2
    · exact le_refl _
  · rename_i h
    rcases hcases with rfl | rfl
    · exact le_refl _
    · exact not_lt.mp fun hlt => h ⟨hkn, hlt⟩

theorem DownReadyFrom.move {v : Nat → α} {n lo i : Nat} (h : DownReadyFrom f v n lo i)
    (hc : i * 2 + 1 < n) (hlt : f (v (child f v n i)) < f (v i)) (hlo : lo ≤ i) :
    DownReadyFrom f (swap v i (child f v n i)) n lo (child f v n i) := by
  obtain ⟨hic, hcn, hpc⟩ := child_cases f v hc
  have hmin : ∀ k, 0 < k → k < n → parent k = i → f (v (child f v n i)) ≤ f (v k) :=
    fun k => child_le
  generalize child f v n i = c at *
  constructor
  · intro k hk0 hkn hklo hpk
    have hkp := parent_lt (Nat.ne_of_gt hk0)
    by_cases hpi : parent k = i
    · rw [hpi, swap_left]
      by_cases hkc : k = c
      · subst hkc
        simpa using le_of_lt hlt
      · rw [swap_other v (by omega) hkc]
        exact hmin k hk0 hkn hpi
    · rw [swap_other v hpi hpk]
      by_cases hki : k = i
      · subst hki
        rw [swap_left]
        exact h.below c hk0 hklo hcn (by omega) hpc
      · by_cases hkc : k = c
        · exact absurd (hkc ▸ hpc) hpi
        · rw [swap_other v hki hkc]
          exact h.others k hk0 hkn hklo hpi
  · intro k hc0 _ hkn hk0 hpk
    have hkp := parent_lt (Nat.ne_of_gt hk0)
    rw [hpc, swap_left, swap_other v (by omega) (by omega)]
    have := h.others k hk0 hkn (by omega) (by omega)
    rwa [hpk] at this

theorem siftDown_orderedFrom {v : Nat → α} {n lo i : Nat} (h : DownReadyFrom f v n lo i)
    (hlo : lo ≤ i) : OrderedFrom f (siftDown f v n i) n lo := by
  induction v, i using siftDown.induct (f := f) (n := n) with
  | case1 v i hc hlt ih =>
    have hic := (child_cases f v hc).1
    rw [siftDown, dif_pos hc, if_pos hlt]
    exact ih (h.move hc hlt hlo) (by omega)
  | case2 v i hc hlt =>
    rw [siftDown, dif_pos hc, if_neg hlt]
    intro k hk0 hkn hklo
    by_cases hpk : parent k = i
    · rw [hpk]
      exact le_trans (not_lt.mp hlt) (child_le hk0 hkn hpk)
    · exact h.others k hk0 hkn hklo hpk
  | case3 v i hc =>
    rw [siftDown, dif_neg hc]
    intro k hk0 hkn hklo
    refine h.others k hk0 hkn hklo ?_
    unfold parent
    omega

theorem siftDown_ordered {v : Nat → α} {n i : Nat} (h : DownReady f v n i) :
    Ordered f (siftDown f v n i) n := by
  have hfrom : DownReadyFrom f v n 0 i :=
    ⟨fun k hk0 hkn _ => h.others k hk0 hkn, fun k hi0 _ => h.below k hi0⟩
  intro k hk0 hkn
  exact siftDown_orderedFrom hfrom (Nat.zero_le i) k hk0 hkn (Nat.zero_le _)

/-! ## Building a heap -/

/-- Sift down what is at `i - 1`, …, 0. -/
def heapify (f : α → κ) (n : Nat) : Nat → (Nat → α) → Nat → α
  | 0, v => v
  | i + 1, v => heapify f n i (siftDown f v n i)

theorem heapify_perm (n i : Nat) (v : Nat → α) :
    (contents (heapify f n i v) n).Perm (contents v n) := by
  induction i generalizing v with
  | zero => exact List.Perm.refl _
  | succ i ih => exact (ih (siftDown f v n i)).trans (siftDown_perm v n)

/-- From the places `i` on in order to all of them, by induction on `i`. -/
theorem heapify_ordered {n i : Nat} {v : Nat → α} (h : OrderedFrom f v n i) :
    Ordered f (heapify f n i v) n := by
  induction i generalizing v with
  | zero =>
    intro k hk0 hkn
    exact h k hk0 hkn (Nat.zero_le _)
  | succ i ih =>
    refine ih (siftDown_orderedFrom ⟨?_, ?_⟩ (Nat.le_refl i))
    · intro k hk0 hkn hki hne
      exact h k hk0 hkn (by omega)
    · intro k hi0 hlo
      have := parent_lt (Nat.ne_of_gt hi0)
      omega

/-- The places that have no child are in order as they are. -/
theorem orderedFrom_leaves (v : Nat → α) (n : Nat) : OrderedFrom f v n ((n - 1) / 2 + 1) := by
  intro k hk0 hkn hlo
  unfold parent at hlo
  omega

/-- The root has the smallest key. -/
theorem Ordered.root_le {v : Nat → α} {n : Nat} (h : Ordered f v n) {i : Nat} (hi : i < n) :
    f (v 0) ≤ f (v i) := by
  induction i using Nat.strongRecOn with
  | ind i ih =>
    by_cases hne : i = 0
    · rw [hne]
    · have hp := parent_lt hne
      exact le_trans (ih (parent i) hp (by omega)) (h i (by omega) hi)

end

end BinHeap
end Unpvol1
