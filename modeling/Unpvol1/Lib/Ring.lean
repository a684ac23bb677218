import Mathlib.Data.List.Basic
import Mathlib.Data.Nat.ModEq
import Mathlib.Logic.Function.Basic

/-!
# Lib.Ring

A circular array of `n` slots with a get index and a put index, as consumers and a producer share
it without a count. `Ring.Holds n slots iget iput q` says that `q` is what the slots from `iget` up
to `iput` hold, oldest first.

* `Holds.put`, `Holds.take` — the two ends of the queue.
* `Holds.meet_iff` — the indices meet when the queue is empty and when it is full.
-/

namespace Unpvol1
namespace Ring

section
variable {α : Type}

/-- `if (++i == n) i = 0`. -/
def next (n i : Nat) : Nat := if i + 1 = n then 0 else i + 1

theorem next_eq {n i : Nat} (h : i < n) : next n i = (i + 1) % n := by
  unfold next
  split
  · rename_i he
    rw [he, Nat.mod_self]
  · rw [Nat.mod_eq_of_lt (by omega)]

theorem next_lt {n i : Nat} (h : i < n) : next n i < n := by
  unfold next
  split <;> omega

structure Holds (n : Nat) (slots : Nat → α) (iget iput : Nat) (q : List α) : Prop where
  iget_lt : iget < n
  iput_eq : iput = (iget + q.length) % n
  fits : q.length ≤ n
  held : ∀ i < q.length, q[i]? = some (slots ((iget + i) % n))

variable {n iget iput : Nat} {slots : Nat → α} {q : List α}

theorem holds_nil (slots : Nat → α) (h : 0 < n) : Holds n slots 0 0 [] where
  iget_lt := h
  iput_eq := by simp
  fits := by simp
  held := by simp

/-- Two offsets below `n` give different slots. -/
theorem offset_inj {i j : Nat} (hi : i < n) (hj : j < n)
    (h : (iget + i) % n = (iget + j) % n) : i = j := by
  have hmod : i % n = j % n := Nat.ModEq.add_left_cancel' iget h
  rwa [Nat.mod_eq_of_lt hi, Nat.mod_eq_of_lt hj] at hmod

namespace Holds

theorem iput_lt (h : Holds n slots iget iput q) : iput < n := by
  rw [h.iput_eq]
  exact Nat.mod_lt _ (Nat.zero_lt_of_lt h.iget_lt)

/-- Equal indices mean empty to a consumer and full to the producer. -/
theorem meet_iff (h : Holds n slots iget iput q) : iget = iput ↔ q = [] ∨ q.length = n := by
  have hlt := h.iget_lt
  have hfits := h.fits
  rw [h.iput_eq, ← List.length_eq_zero_iff]
  rcases Nat.lt_or_ge (iget + q.length) n with hsum | hsum
  · rw [Nat.mod_eq_of_lt hsum]
    omega
  · rw [Nat.mod_eq_sub_mod hsum, Nat.mod_eq_of_lt (by omega)]
    omega

theorem put (h : Holds n slots iget iput q) (hroom : q.length < n) (x : α) :
    Holds n (Function.update slots iput x) iget (next n iput) (q ++ [x]) where
  iget_lt := h.iget_lt
  iput_eq := by
    rw [next_eq h.iput_lt, h.iput_eq, Nat.mod_add_mod, List.length_append, Nat.add_assoc]
    rfl
  fits := by
    rw [List.length_append, List.length_singleton]
    exact hroom
  held := by
    intro i hi
    rw [List.length_append, List.length_singleton] at hi
    rcases Nat.lt_or_ge i q.length with hlt | hge
    · have hne : (iget + i) % n ≠ iput := by
        rw [h.iput_eq]
        intro he
        exact absurd (offset_inj (by omega) hroom he) (by omega)
      rw [List.getElem?_append_left hlt, Function.update_of_ne hne, h.held i hlt]
    · obtain rfl : i = q.length := by omega
      rw [← h.iput_eq, Function.update_self, List.getElem?_concat_length]

theorem take {x : α} (h : Holds n slots iget iput (x :: q)) :
    slots iget = x ∧ Holds n slots (next n iget) iput q := by
  have hlen := h.fits
  rw [List.length_cons] at hlen
  have hfirst := h.held 0 (by simp)
  rw [Nat.add_zero, Nat.mod_eq_of_lt h.iget_lt] at hfirst
  refine ⟨by simpa using hfirst.symm, next_lt h.iget_lt, ?_, by omega, ?_⟩
  · rw [next_eq h.iget_lt, Nat.mod_add_mod, h.iput_eq, List.length_cons]
    congr 1
    omega
  · intro i hi
    have hnext := h.held (i + 1) (by simpa using hi)
    rw [List.getElem?_cons_succ] at hnext
    rw [hnext, next_eq h.iget_lt, Nat.mod_add_mod]
    congr 3
    omega

end Holds
end

end Ring
end Unpvol1
