import Mathlib.Algebra.GroupWithZero.Nat
import Unpvol1.Lib.Channel

/-!
# Lib.SelfPipe

Signals as events of a loop. The handler of a signal writes it into a pipe; the loop watches the
other end of the pipe, edge-triggered, reads up to `len` signals each time it is told of it, and
acts on them one by one. A signal is pending at most once, and is lost where the pipe is full.

* `raise`, `deliver`, `report`, `recv`, `act` — the way of a signal.
* `due len p`   — the signals the loop will act on even if no more come, in order. `due_report`,
  `due_recv` and `due_act` say that it is a queue, `deliver_due` when a signal gets into it.
* `Coming`      — a signal that is pending or due, or will be due when the pending ones come.
* `load`        — how much of the pipe may be needed.
* `total`       — an account of all signals there are. `work` — how many steps they can still cause,
  `w x` of them by acting on `x`.
-/

namespace Unpvol1

structure SelfPipe (σ : Type) where
  pending : List σ
  pipe : Channel σ
  /-- An edge is to be reported. -/
  ready : Bool
  /-- An edge has been reported, and the read is to come. -/
  told : Bool
  inHand : List σ

namespace SelfPipe

variable {σ : Type}

def empty (cap : Nat) : SelfPipe σ := ⟨[], Channel.empty cap, false, false, []⟩

def raise [DecidableEq σ] (x : σ) (p : SelfPipe σ) : SelfPipe σ :=
  if x ∈ p.pending then p else { p with pending := p.pending ++ [x] }

def deliver [DecidableEq σ] (x : σ) (p : SelfPipe σ) : SelfPipe σ :=
  if 0 < p.pipe.room then
    { p with pending := p.pending.erase x, pipe := p.pipe.push [x], ready := true }
  else
    { p with pending := p.pending.erase x }

def report (p : SelfPipe σ) : SelfPipe σ := { p with ready := false, told := true }

def recv (len : Nat) (p : SelfPipe σ) : SelfPipe σ :=
  { p with told := false, pipe := p.pipe.pull len, inHand := p.pipe.data.take len }

def act (p : SelfPipe σ) : SelfPipe σ := { p with inHand := p.inHand.tail }

/-- The loop has nothing reported or in hand. -/
def Idle (p : SelfPipe σ) : Prop := p.told = false ∧ p.inHand.isEmpty = true

instance (p : SelfPipe σ) : Decidable p.Idle := inferInstanceAs (Decidable (_ ∧ _))

/-- Each edge, reported or not, is good for one read. -/
def due (len : Nat) (p : SelfPipe σ) : List σ :=
  p.inHand ++ p.pipe.data.take (len * (p.ready.toNat + p.told.toNat))

/-- A pending signal has the loop read what an earlier read left. -/
def Coming (len : Nat) (x : σ) (p : SelfPipe σ) : Prop :=
  x ∈ p.pending ∨ x ∈ p.due len ∨ p.pending.isEmpty = false ∧ x ∈ p.pipe.data

instance [DecidableEq σ] (len : Nat) (x : σ) (p : SelfPipe σ) : Decidable (p.Coming len x) :=
  inferInstanceAs (Decidable (_ ∨ _ ∨ _))

def load (p : SelfPipe σ) : Nat := p.pipe.data.length + p.pending.length

def total (w : σ → Nat) (p : SelfPipe σ) : Nat :=
  (p.pending.map w).sum + (p.pipe.data.map w).sum + (p.inHand.map w).sum

def work (w : σ → Nat) (p : SelfPipe σ) : Nat :=
  p.total w + 3 * p.pending.length + 2 * p.ready.toNat + p.told.toNat

section
variable {len n : Nat} {x y : σ} {rest : List σ} {p : SelfPipe σ} {w : σ → Nat}

theorem due_report (hr : p.ready = true) (ht : p.told = false) : p.report.due len = p.due len := by
  simp only [due, report, hr, ht]
  rfl

theorem due_recv (ht : p.told = true) (hh : p.inHand = []) : (p.recv len).due len = p.due len := by
  simp only [due, recv, ht, hh, Channel.pull_data, Bool.toNat_true, Bool.toNat_false, Nat.add_zero,
    List.nil_append, Nat.mul_add, Nat.mul_one]
  rw [Nat.add_comm (len * _) len, List.take_add]

theorem due_act (hh : p.inHand = x :: rest) : p.due len = x :: p.act.due len := by
  simp only [due, act, hh, List.tail_cons, List.cons_append]

/-- Nothing is due where nothing is in hand, told of or to be told of. -/
theorem due_nil (hi : p.Idle) (hr : p.ready = false ∨ p.pipe.data = []) : p.due len = [] := by
  obtain ⟨ht, hh⟩ := hi
  rw [List.isEmpty_iff] at hh
  rcases hr with hr | hd
  · simp [due, ht, hh, hr]
  · simp [due, hh, hd]

theorem coming_report (hr : p.ready = true) (ht : p.told = false) :
    p.report.Coming len y ↔ p.Coming len y := by
  unfold Coming
  rw [due_report hr ht]
  rfl

theorem coming_recv (ht : p.told = true) (hh : p.inHand = []) :
    (p.recv len).Coming len y ↔ p.Coming len y := by
  have hdata : (p.recv len).pipe.data = p.pipe.data.drop len := rfl
  unfold Coming
  rw [due_recv ht hh, hdata]
  refine or_congr Iff.rfl ⟨Or.imp id (And.imp id fun h => List.mem_of_mem_drop h), ?_⟩
  rintro (h | ⟨hp, h⟩)
  · exact .inl h
  · rw [← List.take_append_drop len p.pipe.data, List.mem_append] at h
    refine h.imp (fun h => ?_) fun h => ⟨hp, h⟩
    rw [← due_recv ht hh]
    exact List.mem_append_left _ h

/-- The signal acted on is on its way no more, unless it comes again. -/
theorem Coming.act (h : p.Coming len y) (hh : p.inHand = x :: rest) :
    y = x ∨ p.act.Coming len y := by
  rcases h with h | h | h
  · exact .inr (.inl h)
  · rw [due_act hh] at h
    rcases List.mem_cons.mp h with rfl | h
    · exact .inl rfl
    · exact .inr (.inr (.inl h))
  · exact .inr (.inr (.inr h))

theorem Coming.of_act (h : p.act.Coming len y) (hh : p.inHand = x :: rest) : p.Coming len y := by
  refine h.imp id (Or.imp (fun h => ?_) id)
  rw [due_act hh]
  exact List.mem_cons_of_mem x h

theorem not_coming (hp : p.pending = []) (hi : p.Idle) (hr : p.ready = false ∨ p.pipe.data = []) :
    ¬p.Coming len x := by
  rintro (h | h | h)
  · rw [hp] at h
    cases h
  · rw [due_nil hi hr] at h
    cases h
  · rw [hp] at h
    cases h.1

theorem load_recv : (p.recv len).load ≤ p.load := by
  simp only [load, recv, Channel.pull_data, List.length_drop]
  omega

/-- A signal is pending, and there is room for all. -/
theorem room_of_load (hx : x ∈ p.pending) (hload : p.load ≤ p.pipe.cap) : 0 < p.pipe.room := by
  have hpos := List.length_pos_of_mem hx
  have hlen := Channel.length_eq p.pipe
  unfold load at hload
  omega

theorem length_of_load (hx : x ∈ p.pending) (hload : p.load ≤ n) : p.pipe.data.length < n := by
  have hpos := List.length_pos_of_mem hx
  unfold load at hload
  omega

theorem total_recv (hh : p.inHand = []) : (p.recv len).total w = p.total w := by
  have hsplit : (p.pipe.data.map w).sum =
      ((p.pipe.data.take len).map w).sum + ((p.pipe.data.drop len).map w).sum := by
    rw [← List.sum_append, ← List.map_append, List.take_append_drop]
  simp only [total, recv, hh, Channel.pull_data, List.map_nil, List.sum_nil]
  omega

theorem total_act (hh : p.inHand = x :: rest) : p.act.total w + w x = p.total w := by
  simp only [total, act, hh, List.tail_cons, List.map_cons, List.sum_cons]
  omega

theorem work_report (hr : p.ready = true) (ht : p.told = false) : p.report.work w < p.work w := by
  have htotal : p.report.total w = p.total w := rfl
  have hpending : p.report.pending = p.pending := rfl
  have hready : p.report.ready.toNat = 0 := rfl
  have htold : p.report.told.toNat = 1 := rfl
  unfold work
  rw [htotal, hpending, hready, htold, hr, ht, Bool.toNat_true, Bool.toNat_false]
  omega

theorem work_recv (ht : p.told = true) (hh : p.inHand = []) : (p.recv len).work w < p.work w := by
  have htotal : (p.recv len).total w = p.total w := total_recv hh
  have hpending : (p.recv len).pending = p.pending := rfl
  have hready : (p.recv len).ready = p.ready := rfl
  have htold : (p.recv len).told.toNat = 0 := rfl
  unfold work
  rw [htotal, hpending, hready, htold, ht, Bool.toNat_true]
  omega

theorem work_act (hh : p.inHand = x :: rest) : p.act.work w + w x = p.work w := by
  have htotal := total_act (w := w) hh
  have hpending : p.act.pending = p.pending := rfl
  have hready : p.act.ready = p.ready := rfl
  have htold : p.act.told = p.told := rfl
  unfold work
  rw [hpending, hready, htold]
  omega

end

/-! ## New signals, and the handler -/

section
variable [DecidableEq σ] {len : Nat} {x y : σ} {p : SelfPipe σ} {w : σ → Nat}

theorem mem_raise : y ∈ (p.raise x).pending ↔ y ∈ p.pending ∨ y = x := by
  unfold raise
  split
  · next hx =>
    constructor
    · exact .inl
    · rintro (hy | rfl)
      · exact hy
      · exact hx
  · simp

theorem raise_loop : (p.raise x).ready = p.ready ∧ (p.raise x).told = p.told := by
  unfold raise
  split
  · exact ⟨rfl, rfl⟩
  · exact ⟨rfl, rfl⟩

theorem due_raise : (p.raise x).due len = p.due len := by
  unfold raise
  split
  · rfl
  · rfl

theorem raise_pipe : (p.raise x).pipe = p.pipe := by
  unfold raise
  split
  · rfl
  · rfl

theorem Coming.raise (h : p.Coming len y) : (p.raise x).Coming len y := by
  rcases h with h | h | ⟨hp, h⟩
  · exact .inl (mem_raise.mpr (.inl h))
  · refine .inr (.inl ?_)
    rw [due_raise]
    exact h
  · refine .inr (.inr ⟨?_, ?_⟩)
    · rw [Bool.eq_false_iff, ne_eq, List.isEmpty_iff]
      exact List.ne_nil_of_mem (mem_raise.mpr (.inr rfl))
    · rw [raise_pipe]
      exact h

theorem coming_raised : (p.raise x).Coming len x := .inl (mem_raise.mpr (.inr rfl))

theorem load_raise : (p.raise x).load ≤ p.load + 1 := by
  unfold raise load
  split
  · exact Nat.le_succ _
  · simp only [List.length_append, List.length_singleton]
    omega

theorem total_raise : (p.raise x).total w ≤ p.total w + w x := by
  unfold raise total
  split
  · exact Nat.le_add_right _ _
  · simp only [List.map_append, List.sum_append, List.map_cons, List.map_nil, List.sum_cons,
      List.sum_nil]
    omega

theorem raise_length : (p.raise x).pending.length ≤ p.pending.length + 1 := by
  unfold raise
  split
  · exact Nat.le_succ _
  · simp

theorem work_raise : (p.raise x).work w ≤ p.work w + w x + 3 := by
  have htotal := total_raise (p := p) (x := x) (w := w)
  have hlen := raise_length (p := p) (x := x)
  unfold work
  rw [raise_loop.1, raise_loop.2]
  omega

theorem deliver_pending : (p.deliver x).pending = p.pending.erase x := by
  unfold deliver
  split
  · rfl
  · rfl

theorem deliver_cap : (p.deliver x).pipe.cap = p.pipe.cap := by
  unfold deliver
  split
  · rfl
  · rfl

theorem deliver_loop : (p.deliver x).told = p.told ∧ (p.deliver x).inHand = p.inHand := by
  unfold deliver
  split
  · exact ⟨rfl, rfl⟩
  · exact ⟨rfl, rfl⟩

/-- The byte is in the pipe, with an edge to be reported, or lost. -/
theorem deliver_cases :
    0 < p.pipe.room ∧ (p.deliver x).pipe.data = p.pipe.data ++ [x] ∧ (p.deliver x).ready = true ∨
      p.pipe.room = 0 ∧ (p.deliver x).pipe = p.pipe ∧ (p.deliver x).ready = p.ready := by
  unfold deliver
  split
  · next hroom => exact .inl ⟨hroom, Channel.push_data hroom, rfl⟩
  · next hroom => exact .inr ⟨Nat.eq_zero_of_not_pos hroom, rfl, rfl⟩

theorem deliver_data : (p.deliver x).pipe.data = p.pipe.data ++ [x] ∨
    (p.deliver x).pipe.data = p.pipe.data := by
  rcases deliver_cases (p := p) (x := x) with ⟨_, hd, _⟩ | ⟨_, hp, _⟩
  · exact .inl hd
  · exact .inr (congrArg Channel.data hp)

/-- More in the pipe and another edge take nothing from what is due. -/
theorem due_deliver : p.due len ⊆ (p.deliver x).due len := by
  unfold deliver
  split
  · next hroom =>
    have hdata : (p.pipe.push [x]).data = p.pipe.data ++ [x] := Channel.push_data hroom
    simp only [due, hdata, Bool.toNat_true]
    intro y hy
    rcases List.mem_append.mp hy with hy | hy
    · exact List.mem_append_left _ hy
    · have hle : p.ready.toNat ≤ 1 := Bool.toNat_le p.ready
      have hmore : len * (p.ready.toNat + p.told.toNat) ≤ len * (1 + p.told.toNat) :=
        Nat.mul_le_mul_left len (Nat.add_le_add_right hle _)
      have hsub := (List.take_prefix_take_left hmore).subset hy
      refine List.mem_append_right _ ?_
      rw [List.take_append]
      exact List.mem_append_left _ hsub
  · exact fun _ hy => hy

/-- Where a signal finds room, and fewer than `len` before it, all that is in the pipe then will be
acted on. -/
theorem deliver_due (hroom : 0 < p.pipe.room) (hlen : p.pipe.data.length < len)
    (hy : y ∈ p.pipe.data ++ [x]) : y ∈ (p.deliver x).due len := by
  have hdata : (p.pipe.push [x]).data = p.pipe.data ++ [x] := Channel.push_data hroom
  unfold deliver
  rw [if_pos hroom]
  simp only [due, hdata, Bool.toNat_true]
  refine List.mem_append_right _ ?_
  rw [List.take_of_length_le]
  · exact hy
  · rw [List.length_append, List.length_singleton, Nat.mul_add, Nat.mul_one]
    exact Nat.le_trans hlen (Nat.le_add_right _ _)

theorem Coming.deliver (h : p.Coming len y) (hroom : 0 < p.pipe.room)
    (hlen : p.pipe.data.length < len) : (p.deliver x).Coming len y := by
  rcases h with h | h | ⟨_, h⟩
  · by_cases hxy : y = x
    · subst hxy
      exact .inr (.inl (deliver_due hroom hlen (List.mem_append_right _ List.mem_cons_self)))
    · refine .inl ?_
      rw [deliver_pending]
      exact (List.mem_erase_of_ne hxy).mpr h
  · exact .inr (.inl (due_deliver h))
  · exact .inr (.inl (deliver_due hroom hlen (List.mem_append_left _ h)))

/-- Nothing new is on its way by a signal that was. -/
theorem Coming.of_deliver (h : (p.deliver x).Coming len y) (hx : x ∈ p.pending) :
    p.Coming len y := by
  have hne : p.pending.isEmpty = false := by
    rw [Bool.eq_false_iff, ne_eq, List.isEmpty_iff]
    exact List.ne_nil_of_mem hx
  have hpipe : y ∈ (p.deliver x).pipe.data → p.Coming len y := by
    intro hy
    rcases deliver_data (p := p) (x := x) with hd | hd
    · rw [hd, List.mem_append, List.mem_singleton] at hy
      rcases hy with hy | rfl
      · exact .inr (.inr ⟨hne, hy⟩)
      · exact .inl hx
    · rw [hd] at hy
      exact .inr (.inr ⟨hne, hy⟩)
  rcases h with h | h | h
  · rw [deliver_pending] at h
    exact .inl (List.mem_of_mem_erase h)
  · rcases List.mem_append.mp h with h | h
    · rw [deliver_loop.2] at h
      exact .inr (.inl (List.mem_append_left _ h))
    · exact hpipe (List.mem_of_mem_take h)
  · exact hpipe h.2

theorem load_deliver (hx : x ∈ p.pending) : (p.deliver x).load ≤ p.load := by
  have hlen := List.length_erase_of_mem hx
  have hpos := List.length_pos_of_mem hx
  unfold load
  rw [deliver_pending]
  rcases deliver_data (p := p) (x := x) with hd | hd
  · rw [hd, List.length_append, List.length_singleton]
    omega
  · rw [hd]
    omega

theorem sum_erase {l : List σ} (f : σ → Nat) (hx : x ∈ l) :
    ((l.erase x).map f).sum + f x = (l.map f).sum := by
  induction l with
  | nil => cases hx
  | cons y l ih =>
    by_cases hy : y = x
    · subst hy
      rw [List.erase_cons_head, List.map_cons, List.sum_cons, Nat.add_comm]
    · have hmem : x ∈ l := (List.mem_cons.mp hx).resolve_left fun h => hy h.symm
      have hrest := ih hmem
      rw [List.erase_cons_tail (by simpa using hy), List.map_cons, List.sum_cons, List.map_cons,
        List.sum_cons]
      omega

theorem total_deliver (hx : x ∈ p.pending) : (p.deliver x).total w ≤ p.total w := by
  have hsum := sum_erase w hx
  unfold total
  rw [deliver_pending, (deliver_loop (p := p) (x := x)).2]
  rcases deliver_data (p := p) (x := x) with hd | hd
  · rw [hd, List.map_append, List.sum_append, List.map_cons, List.map_nil, List.sum_cons,
      List.sum_nil]
    omega
  · rw [hd]
    omega

theorem work_deliver (hx : x ∈ p.pending) : (p.deliver x).work w < p.work w := by
  have htotal := total_deliver (w := w) hx
  have hlen := List.length_erase_of_mem hx
  have hpos := List.length_pos_of_mem hx
  have hready : (p.deliver x).ready.toNat ≤ 1 := Bool.toNat_le _
  unfold work
  rw [deliver_pending, (deliver_loop (p := p) (x := x)).1]
  omega

end

end SelfPipe
end Unpvol1
