import Mathlib.Data.Finset.Basic
import Unpvol1.Timer.TwRuns

/-!
# Timer.TwShape

The links of a time wheel in every run. The timers that are pending are told from the calls alone:
added, and neither deleted since nor called by a tick.

* `track`   — the pending timers after an operation.
* `Shape`   — every slot is a doubly linked list of the pending timers that belong to it.
* `wheel_shape` — in every run.
-/

namespace Unpvol1
namespace TwTimer

open DList

/-- A run, and the addresses of the pending timers. -/
structure Tracked (κ υ : Type) where
  run : Run κ υ
  pending : Finset Nat

section
variable {κ υ : Type}

/-- The timers whose callback the next tick invokes. -/
def fired (r : Run κ υ) : List Nat :=
  match r.wheel.bind tick with
  | none => []
  | some (_, called) => keys called

/-- A timeout that is negative is refused. -/
def track (s : Tracked κ υ) : Op κ υ → Finset Nat
  | .add t timeout _ _ => if timeout < 0 then s.pending else insert t s.pending
  | .del t => s.pending.erase t
  | .tick => s.pending.filter fun a => a ∉ fired s.run

/-- `new` returns an address where no timer is pending; only pending timers are deleted. -/
def permitted (s : Tracked κ υ) : Op κ υ → Prop
  | .add t _ _ _ => t ∉ s.pending
  | .del t => t ∈ s.pending
  | .tick => True

def tracked : Machine (Tracked κ υ) (Op κ υ) where
  step s op := ⟨step s.run op, track s op⟩
  ok := permitted

def initial : Tracked κ υ := ⟨start, ∅⟩

/-- `cur_slot` is an index. A pending timer has a slot and revolutions that are not negative, and
each slot is a list of exactly the pending timers that are in it. -/
structure Shape (w : TimeWheel κ υ) (pending : Finset Nat) : Prop where
  cur : 0 ≤ w.curSlot ∧ w.curSlot < N
  timer : ∀ a ∈ pending, ∃ c, w.mem a = some c ∧ 0 ≤ c.data.timeSlot ∧ c.data.timeSlot < N ∧
    0 ≤ c.data.rotation
  slot : ∀ i, 0 ≤ i → i < N → ∃ l, Linked w.mem (w.slots i) l ∧
    ∀ a, a ∈ l ↔ a ∈ pending ∧ ∃ c, w.mem a = some c ∧ c.data.timeSlot = i

/-! ## The wheel and what is pending -/

/-- The wheel is sound, and holds what is pending. -/
def Agrees (s : Tracked κ υ) : Prop :=
  ∃ w L, Sound s.run w L ∧ ∀ a, a ∈ s.pending ↔ timers w a ≠ none

theorem agrees_initial : Agrees (initial : Tracked κ υ) :=
  ⟨init, fun _ => [], sound_start, fun a => by simp [initial, timers, init]⟩

section
variable {w : TimeWheel κ υ} {L : Int → List (Nat × Timer κ υ)}

theorem timers_ne_none {a : Nat} : timers w a ≠ none ↔ ∃ c, w.mem a = some c := by
  rw [timers, Ne, Option.map_eq_none_iff]
  exact Option.ne_none_iff_exists'

/-- The timers of a slot, by their addresses. -/
theorem Wheel.mem_keys (h : Wheel w L) {i : Int} (hi : IsSlot i) (a : Nat) :
    a ∈ keys (L i) ↔ ∃ c, w.mem a = some c ∧ c.data.timeSlot = i := by
  constructor
  · intro ha
    obtain ⟨x, hx, rfl⟩ := List.mem_map.mp ha
    obtain ⟨c, hc, hd⟩ := (h.seg i hi).load hx
    exact ⟨c, hc, by rw [hd, h.home i hi x hx]⟩
  · rintro ⟨c, hc, rfl⟩
    exact List.mem_map_of_mem (h.all a c hc).2

theorem Wheel.shape (h : Wheel w L) {pending : Finset Nat}
    (hp : ∀ a, a ∈ pending ↔ timers w a ≠ none) : Shape w pending where
  cur := h.cur
  timer := by
    intro a ha
    obtain ⟨c, hc⟩ := timers_ne_none.mp ((hp a).mp ha)
    obtain ⟨hslot, hrot⟩ := h.fits (show timers w a = some c.data by rw [timers, hc]; rfl)
    exact ⟨c, hc, hslot.1, hslot.2, hrot⟩
  slot := by
    intro i hi0 hiN
    have hi : IsSlot i := ⟨hi0, hiN⟩
    refine ⟨keys (L i), ?_, fun a => ?_⟩
    · rw [h.slot i hi]
      exact (h.seg i hi).linked (h.nodup i hi)
    · rw [h.mem_keys hi, hp a, timers_ne_none]
      constructor
      · rintro ⟨c, hc, hts⟩
        exact ⟨⟨c, hc⟩, c, hc, hts⟩
      · intro hc
        exact hc.2

/-- What a tick calls is what it takes off the wheel. -/
theorem Sound.fired_iff {r : Run κ υ} (h : Sound r w L) {a : Nat} :
    a ∈ fired r ↔ ∃ d, timers w a = some d ∧ after w.curSlot d = none := by
  obtain ⟨w', _, called, e, _, _, _, hcalled, _⟩ := tick_wheel h.wheel h.callable
  have hfired : fired r = keys called := by
    rw [fired, h.running]
    simp [e]
  have hafter : ∀ d : Timer κ υ, after w.curSlot d = none ↔
      d.timeSlot = w.curSlot ∧ d.rotation ≤ 0 := by
    intro d
    simp only [after]
    split
    · split <;> simp [*]
    · simp [*]
  rw [hfired]
  constructor
  · intro ha
    obtain ⟨⟨a, d⟩, hmem, rfl⟩ := List.mem_map.mp ha
    obtain ⟨hd, hdue⟩ := (hcalled a d).mp hmem
    exact ⟨d, hd, (hafter d).mpr hdue⟩
  · rintro ⟨d, hd, hdue⟩
    exact List.mem_map_of_mem ((hcalled a d).mpr ⟨hd, (hafter d).mp hdue⟩)

end

theorem agrees_step {s : Tracked κ υ} {op : Op κ υ} (h : Agrees s) (hok : permitted s op) :
    Agrees (tracked.step s op) := by
  obtain ⟨w, L, hs, hp⟩ := h
  cases op with
  | add t timeout cbFunc userData =>
    have ht : timers w t = none := by
      by_contra hne
      exact hok ((hp t).mpr hne)
    obtain ⟨w', L', hs', _, hother, hself⟩ := sound_add hs ht timeout cbFunc userData
    refine ⟨w', L', hs', fun a => ?_⟩
    show a ∈ (if timeout < 0 then s.pending else insert t s.pending) ↔ _
    by_cases ha : a = t
    · subst ha
      by_cases hneg : timeout < 0
      · -- refused: the wheel is the one before
        have hrun := hs'.running
        simp only [machine, step, hs.running, Option.bind_some, add, addTimer, if_pos hneg,
          Option.bind_eq_bind, if_true, Option.some.injEq] at hrun
        rw [if_pos hneg, hp a, hrun]
      · rw [if_neg hneg, hself (Int.not_lt.mp hneg)]
        simp
    · have hkeep : a ∈ (if timeout < 0 then s.pending else insert t s.pending) ↔
          a ∈ s.pending := by
        split
        · exact Iff.rfl
        · simp [ha]
      rw [hkeep, hp a, hother a ha]
  | del t =>
    obtain ⟨w', L', hs', _, htim⟩ := sound_del hs ((hp t).mp hok)
    refine ⟨w', L', hs', fun a => ?_⟩
    show a ∈ s.pending.erase t ↔ _
    rw [Finset.mem_erase, hp a, htim]
    by_cases ha : a = t
    · simp [ha]
    · simp [ha]
  | tick =>
    obtain ⟨w', L', _, hs', _, htim, _⟩ := sound_tick hs
    refine ⟨w', L', hs', fun a => ?_⟩
    show a ∈ s.pending.filter (fun a => a ∉ fired s.run) ↔ _
    rw [Finset.mem_filter, hp a, hs.fired_iff, htim]
    cases hd : timers w a with
    | none => simp
    | some d => simp

/-- For every sequence of additions, deletions of pending timers and ticks: the wheel is there, and
its slots are linked as they should be, with exactly the pending timers in them. -/
theorem wheel_shape (ops : List (Op κ υ)) (hv : tracked.Valid initial ops) :
    tracked.Always (fun s => ∃ w, s.run.wheel = some w ∧ Shape w s.pending) initial ops :=
  (Machine.always_inv (fun _ _ h hok => agrees_step h hok) agrees_initial hv).imp
    fun _ ⟨w, _, hs, hp⟩ => ⟨w, hs.running, hs.wheel.shape hp⟩

end

/-- Three timers of one slot: the first of its list is deleted, the last fires while the one between
has a revolution to go. -/
theorem wheel_shape_run :
    tracked.Always (fun s => ∃ w, s.run.wheel = some w ∧ Shape w s.pending) initial
      [.add 3 1 "a" 0, .add 5 61 "b" 1, .add 7 1 "c" 2, .del 7, .tick, .tick, .tick] := by
  refine wheel_shape _ ⟨?_, ?_, ?_, ?_, trivial, trivial, trivial, trivial⟩
  · simp [tracked, permitted, initial]
  · simp [tracked, permitted, initial, track]
  · simp [tracked, permitted, initial, track]
  · simp [tracked, permitted, initial, track]

end TwTimer
end Unpvol1
