import Mathlib.Algebra.Group.Int.Defs
import Mathlib.Algebra.Group.Nat.Defs
import Mathlib.Data.Int.Basic
import Mathlib.Data.List.TakeDrop
import Mathlib.Tactic.Common

/-!
# Unp.IfiSizing

The first loop of `get_ifi_info` (`17chp/get_ifi_info.c`): `SIOCGIFCONF` into larger and larger
buffers, until two lengths in succession are the same. What the kernel does is a parameter.

* `turn`    — one buffer.
* `sizing`  — the loop, with a number of turns it may take.
* `sizeFor` — the buffer that is the last.
* `sizing_all` — the loop ends, and has all the records.
-/

namespace Unpvol1
namespace IfiSizing

/-- `sizeof(struct ifreq)`. -/
def IFREQ : Int := 40

def INT_MAX : Int := 2 ^ 31 - 1

/-- The conversion to `int`. -/
def toInt (n : Int) : Int := Int.bmod n (2 ^ 32)

inductive Errno where
  | EINVAL
  | other (code : Nat)
deriving DecidableEq

section
variable {α : Type}

/-- What `ioctl` comes to: an error, or `ifc_len` and the records in `ifc_buf`. -/
inductive Reply (α : Type) where
  | failed (errno : Errno)
  | filled (ifcLen : Int) (ifcBuf : List α)

/-- `SIOCGIFCONF`, by the length of the buffer. -/
abbrev Ioctl (α : Type) := Int → Reply α

/-- Where a turn leads: to another with a larger buffer, out of the loop with `ifc`, or to
`err_sys`. -/
inductive Turn (α : Type) where
  | again (len lastlen : Int)
  | sized (len ifcLen : Int) (ifcBuf : List α)
  | errSys
deriving DecidableEq

/-- `len += 10 * sizeof(struct ifreq)`. -/
def increment (len : Int) : Int := toInt (len + 10 * IFREQ)

def turn (ioctl : Ioctl α) (len lastlen : Int) : Turn α :=
  match ioctl len with
  | .failed errno =>
    if errno ≠ .EINVAL ∨ lastlen ≠ 0 then .errSys else .again (increment len) lastlen
  | .filled ifcLen ifcBuf =>
    if ifcLen = lastlen then .sized len ifcLen ifcBuf else .again (increment len) ifcLen

/-- At most `fuel` turns; `none` when they do not end the loop. -/
def sizing (ioctl : Ioctl α) : Nat → Int → Int → Option (Turn α)
  | 0, _, _ => none
  | fuel + 1, len, lastlen =>
    match turn ioctl len lastlen with
    | .again len lastlen => sizing ioctl fuel len lastlen
    | t => some t

/-- The guess to start with. -/
def guess : Int := 100 * IFREQ

/-- The kernel copies as many whole records as the buffer holds. -/
def Copies (ioctl : Ioctl α) (records : List α) : Prop :=
  ∀ cap : Nat, ioctl (cap * IFREQ) =
    .filled ((min records.length cap : Nat) * IFREQ) (records.take cap)

/-- The buffer to end with, for `count` records and a start with room for `cap` of them: the first
that holds them, and one more. -/
def lastCap (cap count : Nat) : Nat := cap + 10 * ((count - cap + 9) / 10) + 10

def sizeFor (count : Nat) : Int := if count = 0 then guess else lastCap 100 count * IFREQ

/-! ## One turn -/

theorem increment_eq {cap : Nat} (hfit : ((cap + 10 : Nat) : Int) * IFREQ ≤ INT_MAX) :
    increment (cap * IFREQ) = ((cap + 10 : Nat) : Int) * IFREQ := by
  have hsum : (cap : Int) * IFREQ + 10 * IFREQ = ((cap + 10 : Nat) : Int) * IFREQ := by
    rw [Int.natCast_add, Int.add_mul]
    rfl
  rw [increment, toInt, hsum]
  simp only [IFREQ, INT_MAX] at hfit ⊢
  exact Int.bmod_eq_of_le (by omega) (by omega)

variable {ioctl : Ioctl α} {records : List α}

/-- The length that was returned last is not the one of a buffer that is larger and was filled. -/
theorem turn_again (h : Copies ioctl records) {cap last : Nat}
    (hlast : last < min records.length cap) (hfit : ((cap + 10 : Nat) : Int) * IFREQ ≤ INT_MAX) :
    turn ioctl (cap * IFREQ) (last * IFREQ) =
      .again ((cap + 10 : Nat) * IFREQ) ((min records.length cap : Nat) * IFREQ) := by
  have hne : ((min records.length cap : Nat) : Int) * IFREQ ≠ last * IFREQ := by
    simp only [IFREQ]
    omega
  rw [turn, h cap]
  simp only [if_neg hne, increment_eq hfit]

/-- When all the records were counted before, and there is room for them, the loop ends. -/
theorem turn_sized (h : Copies ioctl records) {cap : Nat} (hcap : records.length ≤ cap) :
    turn ioctl (cap * IFREQ) (records.length * IFREQ) =
      .sized (cap * IFREQ) (records.length * IFREQ) records := by
  rw [turn, h cap]
  simp only [Nat.min_eq_left hcap, if_true, List.take_of_length_le hcap]

/-! ## The loop -/

theorem sizing_last (h : Copies ioctl records) {cap : Nat} (hcap : records.length ≤ cap)
    {fuel : Nat} (hfuel : 0 < fuel) :
    sizing ioctl fuel (cap * IFREQ) (records.length * IFREQ) =
      some (.sized (cap * IFREQ) (records.length * IFREQ) records) := by
  obtain ⟨fuel, rfl⟩ := Nat.exists_eq_succ_of_ne_zero (Nat.ne_of_gt hfuel)
  rw [sizing, turn_sized h hcap]

/-- From a buffer that is larger than what was counted last, by induction on the turns that fill
their buffer. -/
theorem sizing_grow (h : Copies ioctl records) (n : Nat) {cap last fuel : Nat}
    (hn : (records.length - cap + 9) / 10 = n) (hlast : last < min records.length cap)
    (hfit : (lastCap cap records.length : Int) * IFREQ ≤ INT_MAX) (hfuel : n + 1 < fuel) :
    sizing ioctl fuel (cap * IFREQ) (last * IFREQ) =
      some (.sized (lastCap cap records.length * IFREQ) (records.length * IFREQ) records) := by
  have hnext : ((cap + 10 : Nat) : Int) * IFREQ ≤ INT_MAX := by
    simp only [lastCap, IFREQ] at hfit ⊢
    omega
  induction n generalizing cap last fuel with
  | zero =>
    -- the records fit: the next turn finds the same length
    have hcap : records.length ≤ cap := by omega
    have heq : lastCap cap records.length = cap + 10 := by rw [lastCap, hn]
    obtain ⟨fuel, rfl⟩ : ∃ m, fuel = m + 1 := ⟨fuel - 1, by omega⟩
    rw [sizing, turn_again h hlast hnext, Nat.min_eq_left hcap, heq]
    exact sizing_last h (Nat.le_add_right_of_le hcap) (by omega)
  | succ n ih =>
    have hcap : cap < records.length := by omega
    have heq : lastCap cap records.length = lastCap (cap + 10) records.length := by
      simp only [lastCap]
      omega
    obtain ⟨fuel, rfl⟩ : ∃ m, fuel = m + 1 := ⟨fuel - 1, by omega⟩
    rw [sizing, turn_again h hlast hnext, Nat.min_eq_right (Nat.le_of_lt hcap), heq]
    rw [heq] at hfit
    refine ih (by omega) (by omega) hfit (by omega) ?_
    simp only [lastCap, IFREQ] at hfit ⊢
    omega

/-- However many records there are, the loop ends and leaves all of them in `ifc_buf`. -/
theorem sizing_all (ioctl : Ioctl α) (records : List α) (h : Copies ioctl records)
    (hfit : sizeFor records.length ≤ INT_MAX) :
    ∃ n, ∀ fuel, n ≤ fuel → sizing ioctl fuel guess 0 =
      some (.sized (sizeFor records.length) (records.length * IFREQ) records) := by
  by_cases hzero : records.length = 0
  · refine ⟨1, fun fuel hfuel => ?_⟩
    have hcap : records.length ≤ 100 := by omega
    have hend := sizing_last h hcap (Nat.lt_of_lt_of_le Nat.zero_lt_one hfuel)
    rw [sizeFor, if_pos hzero]
    rwa [hzero] at hend ⊢
  · refine ⟨(records.length - 100 + 9) / 10 + 2, fun fuel hfuel => ?_⟩
    rw [sizeFor, if_neg hzero] at hfit ⊢
    have hlast : 0 < min records.length 100 := by omega
    exact sizing_grow h _ rfl hlast hfit (by omega)

end

/-- A kernel with these interfaces. -/
def kernel {α : Type} (records : List α) : Ioctl α := fun len =>
  let cap := (len / IFREQ).toNat
  .filled ((min records.length cap : Nat) * IFREQ) (records.take cap)

theorem kernel_copies {α : Type} (records : List α) : Copies (kernel records) records := by
  intro cap
  have hcap : ((cap : Int) * IFREQ / IFREQ).toNat = cap := by
    rw [Int.mul_ediv_cancel _ (by decide : IFREQ ≠ 0), Int.toNat_natCast]
  simp only [kernel, hcap]

/-- One record more than the first buffer holds. -/
theorem sizing_all_101 :
    Copies (kernel (List.range 101)) (List.range 101) ∧
      sizeFor (List.range 101).length ≤ INT_MAX ∧
      ∃ n, ∀ fuel, n ≤ fuel → sizing (kernel (List.range 101)) fuel guess 0 =
        some (.sized (sizeFor (List.range 101).length) ((List.range 101).length * IFREQ)
          (List.range 101)) :=
  have hcopies := kernel_copies (List.range 101)
  have hfit : sizeFor (List.range 101).length ≤ INT_MAX := by decide
  ⟨hcopies, hfit, sizing_all _ _ hcopies hfit⟩

end IfiSizing
end Unpvol1
