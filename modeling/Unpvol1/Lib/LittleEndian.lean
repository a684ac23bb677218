import Mathlib.Algebra.Group.Int.Defs
import Mathlib.Algebra.Group.Nat.Defs
import Mathlib.Data.List.Basic

/-!
# Lib.LittleEndian

Numbers as bytes, least significant byte first, the way a little-endian machine keeps an `int`.

* `leNat` — the number a list of bytes stands for.
* `leNat_eq_iff` — which bytes stand for a given number: its base-256 digits, and no fewer of them
  than it has.
* `leInt32` — the same bytes at the start of a zeroed four-byte `int`.
-/

namespace Unpvol1

def leNat : List UInt8 → Nat
  | [] => 0
  | b :: bs => b.toNat + 256 * leNat bs

/-- The byte a `char*` to an `int` of value `n` points at. -/
def lowByte (n : Nat) : UInt8 := UInt8.ofNat n

theorem lowByte_toNat (n : Nat) : (lowByte n).toNat = n % 256 := by
  simp [lowByte, UInt8.toNat_ofNat']

theorem leNat_lt (bs : List UInt8) : leNat bs < 256 ^ bs.length := by
  induction bs with
  | nil => simp [leNat]
  | cons b bs ih =>
    have hb : b.toNat < 256 := b.toNat_lt
    simp only [leNat, List.length_cons, Nat.pow_succ]
    omega

theorem leNat_eq_iff (bs : List UInt8) (n : Nat) :
    leNat bs = n ↔
      n < 256 ^ bs.length ∧ ∀ i (h : i < bs.length), bs[i].toNat = n / 256 ^ i % 256 := by
  induction bs generalizing n with
  | nil =>
    simp only [leNat, List.length_nil, Nat.pow_zero]
    constructor
    · rintro rfl
      exact ⟨Nat.one_pos, fun i h => absurd h (Nat.not_lt_zero i)⟩
    · rintro ⟨h, -⟩
      omega
  | cons b bs ih =>
    have hb : b.toNat < 256 := b.toNat_lt
    have hsplit : leNat (b :: bs) = n ↔ b.toNat = n % 256 ∧ leNat bs = n / 256 := by
      simp only [leNat]
      omega
    rw [hsplit, ih]
    constructor
    · rintro ⟨hlow, hlt, hdigits⟩
      refine ⟨?_, fun i hi => ?_⟩
      · rw [List.length_cons, Nat.pow_succ]
        exact Nat.lt_mul_of_div_lt hlt (by omega)
      · cases i with
        | zero => simpa using hlow
        | succ i =>
          have h := hdigits i (by simpa using hi)
          rw [Nat.div_div_eq_div_mul, Nat.mul_comm, ← Nat.pow_succ] at h
          simpa using h
    · rintro ⟨hlt, hdigits⟩
      refine ⟨?_, ?_, fun i hi => ?_⟩
      · have h := hdigits 0 (Nat.succ_pos _)
        rw [Nat.pow_zero, Nat.div_one] at h
        exact h
      · rw [List.length_cons, Nat.pow_succ] at hlt
        exact Nat.div_lt_of_lt_mul (by rwa [Nat.mul_comm] at hlt)
      · have h := hdigits (i + 1) (by simpa using hi)
        rw [Nat.div_div_eq_div_mul, Nat.mul_comm, ← Nat.pow_succ]
        simpa using h

/-- The value of a four-byte `int` that was zero and whose first bytes are now `bs`. -/
def leInt32 (bs : List UInt8) : Int :=
  if leNat bs < 2 ^ 31 then leNat bs else (leNat bs : Int) - 2 ^ 32

theorem leInt32_eq_iff {bs : List UInt8} (h : bs.length ≤ 4) (n : Nat) :
    leInt32 bs = n ↔ n < 2 ^ 31 ∧ leNat bs = n := by
  have hlt : leNat bs < 2 ^ 32 := by
    have := leNat_lt bs
    have hpow : (256 : Nat) ^ bs.length ≤ 256 ^ 4 := Nat.pow_le_pow_right (by omega) h
    omega
  unfold leInt32
  split
  · omega
  · omega

end Unpvol1
