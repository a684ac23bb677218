import Mathlib.Data.List.Basic

/-!
# Lib.Channel

One direction of a stream connection: at most `cap` elements written and not yet read, and whether
the writer has shut its end down.

* `push`, `pull`, `finish` — a write of as much as there is room for, a read, a shutdown.
* `Reads len n` — a `read` for `len` elements may return `n`; a blocking one waits until some `n`
  is possible, which is when the channel is `Readable`.
* `Writes len n` — a `write` of `len` elements may take `n`; a blocking one waits until there is
  `room`.
-/

namespace Unpvol1

structure Channel (α : Type) where
  cap : Nat
  data : List α
  fin : Bool
  fits : data.length ≤ cap

namespace Channel

variable {α : Type}

def empty (cap : Nat) : Channel α := ⟨cap, [], false, Nat.zero_le cap⟩

def room (c : Channel α) : Nat := c.cap - c.data.length

def push (xs : List α) (c : Channel α) : Channel α where
  cap := c.cap
  data := c.data ++ xs.take c.room
  fin := c.fin
  fits := by
    have h := c.fits
    simp only [List.length_append, List.length_take, room]
    omega

def pull (n : Nat) (c : Channel α) : Channel α where
  cap := c.cap
  data := c.data.drop n
  fin := c.fin
  fits := by
    have h := c.fits
    simp only [List.length_drop]
    omega

def finish (c : Channel α) : Channel α := { c with fin := true }

/-- A read does not wait: there is something to read, or nothing more will come. -/
def Readable (c : Channel α) : Prop := c.data ≠ [] ∨ c.fin = true

/-- A read returns 0. -/
def AtEnd (c : Channel α) : Prop := c.data = [] ∧ c.fin = true

/-- What a `read` of `len` elements may return; 0 is the end of the stream. -/
def Reads (c : Channel α) (len n : Nat) : Prop :=
  n ≤ len ∧ n ≤ c.data.length ∧ (n = 0 → c.AtEnd)

/-- What a `write` of `len` elements may return. -/
def Writes (c : Channel α) (len n : Nat) : Prop := 0 < n ∧ n ≤ len ∧ n ≤ c.room

instance [DecidableEq α] (c : Channel α) : Decidable c.Readable :=
  inferInstanceAs (Decidable (_ ∨ _))

instance [DecidableEq α] (c : Channel α) : Decidable c.AtEnd := inferInstanceAs (Decidable (_ ∧ _))

instance [DecidableEq α] (c : Channel α) (len n : Nat) : Decidable (c.Reads len n) :=
  inferInstanceAs (Decidable (_ ∧ _ ∧ (_ → _)))

instance (c : Channel α) (len n : Nat) : Decidable (c.Writes len n) :=
  inferInstanceAs (Decidable (_ ∧ _ ∧ _))

section
variable (c : Channel α) (xs : List α) (n : Nat)

@[simp] theorem push_cap : (c.push xs).cap = c.cap := rfl
@[simp] theorem push_fin : (c.push xs).fin = c.fin := rfl
@[simp] theorem pull_cap : (c.pull n).cap = c.cap := rfl
@[simp] theorem pull_fin : (c.pull n).fin = c.fin := rfl
@[simp] theorem pull_data : (c.pull n).data = c.data.drop n := rfl
@[simp] theorem finish_cap : c.finish.cap = c.cap := rfl
@[simp] theorem finish_data : c.finish.data = c.data := rfl
@[simp] theorem finish_fin : c.finish.fin = true := rfl
@[simp] theorem finish_room : c.finish.room = c.room := rfl
@[simp] theorem empty_data (cap : Nat) : (empty cap : Channel α).data = [] := rfl
@[simp] theorem empty_fin (cap : Nat) : (empty cap : Channel α).fin = false := rfl
@[simp] theorem empty_cap (cap : Nat) : (empty cap : Channel α).cap = cap := rfl

end

/-- A write of no more than there is room for is taken whole. -/
theorem push_data {c : Channel α} {xs : List α} (h : xs.length ≤ c.room) :
    (c.push xs).data = c.data ++ xs := by
  show c.data ++ xs.take c.room = c.data ++ xs
  rw [List.take_of_length_le h]

/-- A `read` for something can return just when the channel is readable. -/
theorem exists_reads {c : Channel α} {len : Nat} (h : 0 < len) :
    (∃ n, c.Reads len n) ↔ c.Readable := by
  constructor
  · rintro ⟨n, _, hn, hend⟩
    by_cases h0 : n = 0
    · exact .inr (hend h0).2
    · refine .inl fun hnil => h0 ?_
      simpa [hnil] using hn
  · intro hr
    by_cases hd : c.data = []
    · exact ⟨0, Nat.zero_le _, Nat.zero_le _, fun _ => ⟨hd, hr.resolve_left (· hd)⟩⟩
    · have hpos := List.length_pos_iff.mpr hd
      exact ⟨1, h, hpos, fun h1 => absurd h1 Nat.one_ne_zero⟩

theorem exists_writes {c : Channel α} {len : Nat} (h : 0 < len) :
    (∃ n, c.Writes len n) ↔ 0 < c.room := by
  constructor
  · rintro ⟨n, hpos, _, hn⟩
    exact Nat.lt_of_lt_of_le hpos hn
  · exact fun hr => ⟨1, Nat.one_pos, h, hr⟩

theorem length_eq (c : Channel α) : c.data.length + c.room = c.cap := by
  have h := c.fits
  unfold room
  omega

end Channel
end Unpvol1
