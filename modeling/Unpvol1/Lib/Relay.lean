import Mathlib.Data.List.Basic

/-!
# Lib.Relay

One direction of a byte relay. A `Relay` remembers what was received from the source and what the
destination has accepted; its field says that the accepted part is a prefix of the received one, so
a relay that reorders, loses or invents bytes cannot be built.

A relay is implemented by a linear buffer with an out index `w` and an in index `r`: the slice
`[w, r)` is what is received and not yet accepted (`Holds`). The three moves of such a buffer are
`Holds.push` (copy in at `r`), `Holds.pop` (advance `w`) and `Holds.rewind` (both indices back to
zero once nothing is pending).
-/

namespace Unpvol1

variable {α : Type}

/-! ## Slices of a buffer -/

/-- The elements at positions `[lo, hi)`. -/
def slice (buf : List α) (lo hi : Nat) : List α := (buf.take hi).drop lo

/-- Copy `xs` over the positions from `off` on. -/
def blit (buf : List α) (off : Nat) (xs : List α) : List α :=
  buf.take off ++ xs ++ buf.drop (off + xs.length)

theorem length_blit {buf xs : List α} {off : Nat} (h : off + xs.length ≤ buf.length) :
    (blit buf off xs).length = buf.length := by
  simp only [blit, List.length_append, List.length_take, List.length_drop]
  omega

theorem take_blit_end {buf xs : List α} {off : Nat} (h : off ≤ buf.length) :
    (blit buf off xs).take (off + xs.length) = buf.take off ++ xs := by
  have hlen : off + xs.length = (buf.take off ++ xs).length := by
    simp [List.length_take, Nat.min_eq_left h]
  rw [blit, hlen, List.take_left]

theorem slice_blit_end {buf xs : List α} {w off : Nat} (hw : w ≤ off) (h : off ≤ buf.length) :
    slice (blit buf off xs) w (off + xs.length) = slice buf w off ++ xs := by
  rw [slice, take_blit_end h, slice, List.drop_append_of_le_length]
  simpa [List.length_take, Nat.min_eq_left h] using hw

theorem length_slice {buf : List α} {lo hi : Nat} (h : hi ≤ buf.length) :
    (slice buf lo hi).length = hi - lo := by
  simp [slice, List.length_take, Nat.min_eq_left h]

theorem drop_slice (buf : List α) (lo hi n : Nat) :
    (slice buf lo hi).drop n = slice buf (lo + n) hi := by
  simp [slice, List.drop_drop]

theorem slice_of_le {buf : List α} {lo hi : Nat} (h : hi ≤ lo) : slice buf lo hi = [] := by
  simp only [slice, List.drop_eq_nil_iff, List.length_take]
  omega

theorem slice_append (buf : List α) {lo mid hi : Nat} (h : lo ≤ mid) (h' : mid ≤ hi) :
    slice buf lo mid ++ slice buf mid hi = slice buf lo hi := by
  have htake : (slice buf lo hi).take (mid - lo) = slice buf lo mid := by
    rw [slice, slice, List.take_drop, Nat.add_sub_cancel' h, List.take_take, Nat.min_eq_left h']
  have hdrop := drop_slice buf lo hi (mid - lo)
  rw [Nat.add_sub_cancel' h] at hdrop
  rw [← htake, ← hdrop, List.take_append_drop]

/-! ## Relays -/

structure Relay (α : Type) where
  received : List α
  accepted : List α
  inOrder : accepted <+: received

namespace Relay

/-- Received and not yet accepted. -/
def pending (R : Relay α) : List α := R.received.drop R.accepted.length

theorem received_eq (R : Relay α) : R.received = R.accepted ++ R.pending := by
  obtain ⟨t, ht⟩ := R.inOrder
  simp [pending, ← ht]

/-- Nothing received yet. -/
def fresh : Relay α := ⟨[], [], List.nil_prefix⟩

def push (R : Relay α) (xs : List α) : Relay α :=
  ⟨R.received ++ xs, R.accepted, R.inOrder.trans (List.prefix_append _ _)⟩

def pop (R : Relay α) (n : Nat) : Relay α :=
  ⟨R.received, R.accepted ++ R.pending.take n, by
    conv_rhs => rw [R.received_eq]
    exact (List.prefix_append_right_inj _).mpr (List.take_prefix _ _)⟩

@[simp] theorem push_received (R : Relay α) (xs : List α) :
    (R.push xs).received = R.received ++ xs := rfl
@[simp] theorem push_accepted (R : Relay α) (xs : List α) :
    (R.push xs).accepted = R.accepted := rfl
@[simp] theorem pop_received (R : Relay α) (n : Nat) : (R.pop n).received = R.received := rfl
@[simp] theorem pop_accepted (R : Relay α) (n : Nat) :
    (R.pop n).accepted = R.accepted ++ R.pending.take n := rfl

@[simp] theorem pending_push (R : Relay α) (xs : List α) :
    (R.push xs).pending = R.pending ++ xs := by
  rw [pending, push_received, push_accepted, pending,
    List.drop_append_of_le_length R.inOrder.length_le]

@[simp] theorem pending_pop (R : Relay α) (n : Nat) : (R.pop n).pending = R.pending.drop n := by
  have h : R.received.drop (R.accepted.length + (R.pending.take n).length) =
      R.pending.drop (R.pending.take n).length := by
    rw [pending, List.drop_drop]
  rw [pending, pop_received, pop_accepted, List.length_append, h, List.length_take]
  rcases Nat.le_total n R.pending.length with hn | hn
  · rw [Nat.min_eq_left hn]
  · rw [Nat.min_eq_right hn, List.drop_of_length_le (Nat.le_refl _), List.drop_of_length_le hn]

end Relay

/-- The buffer `buf` of capacity `cap` with out index `w` and in index `r` holds the pending part
of `R`. -/
structure Holds (cap : Nat) (buf : List α) (w r : Nat) (R : Relay α) : Prop where
  len : buf.length = cap
  le : w ≤ r
  fits : r ≤ cap
  slice_eq : slice buf w r = R.pending

namespace Holds

variable {cap w r : Nat} {buf : List α} {R : Relay α}

theorem fresh (h : buf.length = cap) : Holds cap buf 0 0 (Relay.fresh : Relay α) :=
  ⟨h, Nat.le_refl 0, Nat.zero_le cap, rfl⟩

/-- What was received is what was accepted followed by the slice. -/
theorem received_eq (h : Holds cap buf w r R) : R.received = R.accepted ++ slice buf w r := by
  rw [h.slice_eq, ← R.received_eq]

theorem push (h : Holds cap buf w r R) {xs : List α} (hx : r + xs.length ≤ cap) :
    Holds cap (blit buf r xs) w (r + xs.length) (R.push xs) where
  len := by rw [length_blit (by rw [h.len]; exact hx), h.len]
  le := Nat.le_trans h.le (Nat.le_add_right _ _)
  fits := hx
  slice_eq := by
    rw [slice_blit_end h.le (by rw [h.len]; exact h.fits), h.slice_eq, Relay.pending_push]

theorem pop (h : Holds cap buf w r R) {n : Nat} (hn : w + n ≤ r) :
    Holds cap buf (w + n) r (R.pop n) where
  len := h.len
  le := hn
  fits := h.fits
  slice_eq := by rw [← drop_slice, h.slice_eq, Relay.pending_pop]

theorem rewind (h : Holds cap buf w r R) (he : r ≤ w) : Holds cap buf 0 0 R where
  len := h.len
  le := Nat.le_refl 0
  fits := Nat.zero_le cap
  slice_eq := by rw [← h.slice_eq, slice_of_le he, slice_of_le (Nat.le_refl 0)]

/-- Nothing is pending just when the indices meet. -/
theorem pending_eq_nil_iff (h : Holds cap buf w r R) : R.pending = [] ↔ r ≤ w := by
  rw [← h.slice_eq]
  constructor
  · intro he
    have hlen : (slice buf w r).length = r - w := length_slice (by rw [h.len]; exact h.fits)
    rw [he, List.length_nil] at hlen
    omega
  · exact slice_of_le

end Holds
end Unpvol1
