import Unpvol1.Timer.HeapRuns

/-!
# Timer.HeapTick

A tick of a `time_heap`, in terms of the timers the heap holds, those without a callback included.

* `timers h`    — the timers in the array, with their addresses.
* `Drained`     — the heap after all due timers have been popped.
* `tick_spec`   — a tick pops every due timer, in order, and calls those that still have a callback.
  The induction is on the number of timers in the heap.
* `pending h`   — the timers that still have a callback; what an addition, a deletion and a tick do
  to them.
-/

namespace Unpvol1
namespace TimerHeap

open BinHeap Slots

section
variable {κ υ : Type}

def timerAt (mem : Nat → Option (HeapTimer κ υ)) (p : Ptr) : Option (Nat × HeapTimer κ υ) :=
  p.bind fun a => (mem a).map (Prod.mk a)

def timers (h : TimeHeap κ υ) : List (Nat × HeapTimer κ υ) := (held h).filterMap (timerAt h.mem)

abbrev dueAt (x : Nat × HeapTimer κ υ) : Int := x.2.expire

/-- The timer still has a callback. -/
def Called (x : Nat × HeapTimer κ υ) : Bool := x.2.cbFunc.isSome

theorem timerAt_eq_some {mem : Nat → Option (HeapTimer κ υ)} {p : Ptr}
    {x : Nat × HeapTimer κ υ} : timerAt mem p = some x ↔ p = some x.1 ∧ mem x.1 = some x.2 := by
  cases p with
  | none => simp [timerAt]
  | some a =>
    constructor
    · intro e
      obtain ⟨t, ht, rfl⟩ := Option.map_eq_some_iff.mp e
      exact ⟨rfl, ht⟩
    · rintro ⟨e, ht⟩
      cases e
      simp [timerAt, ht]

theorem mem_timers {h : TimeHeap κ υ} {x : Nat × HeapTimer κ υ} :
    x ∈ timers h ↔ some x.1 ∈ held h ∧ h.mem x.1 = some x.2 := by
  simp only [timers, List.mem_filterMap, timerAt_eq_some]
  constructor
  · rintro ⟨p, hp, rfl, ht⟩
    exact ⟨hp, ht⟩
  · rintro ⟨hp, ht⟩
    exact ⟨_, hp, rfl, ht⟩

theorem expireOf_of_mem {h : TimeHeap κ υ} {x : Nat × HeapTimer κ υ} (hx : x ∈ timers h) :
    expireOf h.mem (some x.1) = dueAt x := by simp [expireOf, (mem_timers.mp hx).2]

theorem timers_congr {h h' : TimeHeap κ υ} {ps : List Ptr}
    (hmem : ∀ a, some a ∈ ps → h'.mem a = h.mem a) :
    ps.filterMap (timerAt h'.mem) = ps.filterMap (timerAt h.mem) := by
  refine List.filterMap_congr ?_
  intro p hp
  cases p with
  | none => rfl
  | some a => simp [timerAt, hmem a hp]

/-! ## Ticks -/

/-- `h'` is `h` without the timers `popped`, which are those due at `cur`, in order. -/
structure Drained (cur : Int) (h h' : TimeHeap κ υ) (popped : List (Nat × HeapTimer κ υ)) :
    Prop where
  state : HeapState h'
  nodup : (held h').Nodup
  split : (timers h).Perm (popped ++ timers h')
  sorted : SortedBy dueAt popped
  due : ∀ x ∈ popped, x.2.expire ≤ cur
  later : ∀ x ∈ timers h', cur < x.2.expire

/-- A pop takes the first timer out of `timers`. -/
theorem popTimer_timers {h : TimeHeap κ υ} (hs : HeapState h) (hnd : (held h).Nodup)
    (hne : h.curSize ≠ 0) :
    ∃ x h', h.array 0 = some x.1 ∧ h.mem x.1 = some x.2 ∧ popTimer h = some h' ∧ HeapState h' ∧
      (held h').Nodup ∧ h'.curSize + 1 = h.curSize ∧ (timers h).Perm (x :: timers h') ∧
      ∀ y ∈ timers h, dueAt x ≤ dueAt y := by
  obtain ⟨a, h', h0, e, hs', hmem, hheld, hmin⟩ :=
    popTimer_spec hs hne (List.nodup_iff_count_le_one.mp hnd _)
  obtain ⟨b, t, hb, ht⟩ := hs.live 0 (Nat.pos_of_ne_zero hne)
  obtain rfl : a = b := by
    rw [h0] at hb
    exact Option.some.inj hb
  obtain ⟨hfresh, hnd'⟩ := List.nodup_cons.mp (hheld.nodup_iff.mp hnd)
  have hrest : timers h' = (held h').filterMap (timerAt h.mem) := by
    refine @timers_congr _ _ h h' _ ?_
    intro b hb
    have hba : b ≠ a := fun e => hfresh (e ▸ hb)
    simp [hmem, hba]
  have hperm : (timers h).Perm ((a, t) :: timers h') := by
    have hfirst : timerAt h.mem (some a) = some (a, t) := timerAt_eq_some.mpr ⟨rfl, ht⟩
    have := hheld.filterMap (timerAt h.mem)
    rwa [List.filterMap_cons_some hfirst, ← hrest] at this
  have hlen : h'.curSize + 1 = h.curSize := by
    have := hheld.length_eq
    simpa [held, contents] using this.symm
  refine ⟨(a, t), h', h0, ht, e, hs', hnd', hlen, hperm, ?_⟩
  intro y hy
  have hx : (a, t) ∈ timers h := hperm.mem_iff.mpr List.mem_cons_self
  rw [← expireOf_of_mem hx, ← expireOf_of_mem hy]
  exact hmin _ (mem_timers.mp hy).1

theorem tickLoop_spec (cur : Int) {h : TimeHeap κ υ} (hs : HeapState h) (hnd : (held h).Nodup) :
    ∃ h' popped, tickLoop cur h (h.array 0) = some (h', popped.filter Called) ∧
      Drained cur h h' popped := by
  induction hn : h.curSize generalizing h with
  | zero =>
    have hnil : timers h = [] := by simp [timers, held, contents, hn]
    refine ⟨h, [], by rw [tickLoop_turn, tickIter.eq_def]; simp [hn], hs, hnd, by simp, .nil,
      by simp, ?_⟩
    simp [hnil]
  | succ n ih =>
    have hne : h.curSize ≠ 0 := by omega
    obtain ⟨x, h₁, h0, hx, e₁, hs₁, hnd₁, hlen, hperm, hmin⟩ := popTimer_timers hs hnd hne
    rw [tickLoop_turn, tickIter.eq_def]
    by_cases hlater : x.2.expire > cur
    · refine ⟨h, [], by simp [hne, h0, load, hx, hlater], hs, hnd, by simp, .nil, by simp, ?_⟩
      intro y hy
      exact lt_of_lt_of_le hlater (hmin y hy)
    · obtain ⟨h', popped, e', hd⟩ := ih hs₁ hnd₁ (by omega)
      have hcap := hs.capacity
      have hcap₁ := hs₁.capacity
      refine ⟨h', x :: popped, ?_, hd.state, hd.nodup, ?_, ?_, ?_, hd.later⟩
      · have hget : get h 0 = some (some x.1) := by simp [get, h0, show 0 < h.capacity by omega]
        have hget₁ : get h₁ 0 = some (h₁.array 0) := by simp [get, show 0 < h₁.capacity by omega]
        by_cases hc : x.2.cbFunc.isSome = true
        · simp [hne, h0, load, hx, hlater, hget, hget₁, e₁, e', Called, hc]
        · simp [hne, h0, load, hx, hlater, hget, hget₁, e₁, e', Called, hc]
      · exact hperm.trans (hd.split.cons x)
      · refine List.pairwise_cons.mpr ⟨?_, hd.sorted⟩
        intro y hy
        refine hmin y (hperm.mem_iff.mpr (List.mem_cons_of_mem x ?_))
        exact hd.split.mem_iff.mpr (List.mem_append_left _ hy)
      · intro y hy
        rcases List.mem_cons.mp hy with rfl | hy
        · exact not_lt.mp hlater
        · exact hd.due y hy

/-- A tick pops the due timers, in order, and calls those that still have a callback. -/
theorem tick_spec (cur : Int) {h : TimeHeap κ υ} (hs : HeapState h) (hnd : (held h).Nodup) :
    ∃ h' popped, tick cur h = some (h', popped.filter Called) ∧ Drained cur h h' popped := by
  obtain ⟨h', popped, e, hd⟩ := tickLoop_spec cur hs hnd
  have hcap := hs.capacity
  exact ⟨h', popped, by simp [tick, get, show 0 < h.capacity by omega, e], hd⟩

/-! ## The timers that are still to be called -/

def pending (h : TimeHeap κ υ) : List (Nat × HeapTimer κ υ) := (timers h).filter Called

theorem pending_eq (h : TimeHeap κ υ) :
    pending h = (held h).filterMap fun p => (timerAt h.mem p).filter Called :=
  List.filter_filterMap

theorem pending_new {h : TimeHeap κ υ} (hs : HeapState h) {a : Nat} (ha : h.mem a = none)
    (t : HeapTimer κ υ) :
    pending { h with mem := Function.update h.mem a (some t) } = pending h := by
  refine congrArg (List.filter Called) (timers_congr (h := h) ?_)
  intro b hb
  obtain ⟨c, u, hc, hu⟩ := hs.live_held hb
  have hba : b ≠ a := by
    rintro rfl
    rw [← Option.some.inj hc, ha] at hu
    cases hu
  simp [hba]

theorem pending_add {h h' : TimeHeap κ υ} {a : Nat} {t : HeapTimer κ υ} (ha : h.mem a = some t)
    (ht : t.cbFunc.isSome) (hmem : h'.mem = h.mem) (hheld : (held h').Perm (some a :: held h)) :
    (pending h').Perm ((a, t) :: pending h) := by
  have hfirst : timerAt h.mem (some a) = some (a, t) := timerAt_eq_some.mpr ⟨rfl, ha⟩
  have hperm := (hheld.filterMap (timerAt h.mem)).filter Called
  rw [List.filterMap_cons_some hfirst,
    List.filter_cons_of_pos (show Called (a, t) from ht)] at hperm
  simpa [pending, timers, hmem] using hperm

/-- `del_timer` leaves the timer in the heap, but no longer to be called. -/
theorem pending_del (h : TimeHeap κ υ) (a : Nat) (t : HeapTimer κ υ) :
    pending { h with mem := Function.update h.mem a (some { t with cbFunc := none }) } =
      (pending h).filter fun x => x.1 ≠ a := by
  rw [pending_eq, pending_eq, List.filter_filterMap]
  refine List.filterMap_congr ?_
  intro p _
  cases p with
  | none => rfl
  | some b =>
    by_cases hb : b = a
    · subst hb
      have hnone : timerAt (Function.update h.mem b (some { t with cbFunc := none })) (some b) =
          some (b, { t with cbFunc := none }) := timerAt_eq_some.mpr ⟨rfl, by simp⟩
      rw [hnone]
      cases e : (timerAt h.mem (some b)).filter Called with
      | none => simp [Called, Option.filter_some]
      | some x =>
        have hx := (timerAt_eq_some.mp (Option.filter_eq_some_iff.mp e).1).1
        simp [Called, Option.filter_some, Option.some.inj hx]
    · have hsame : timerAt (Function.update h.mem a (some { t with cbFunc := none })) (some b) =
          timerAt h.mem (some b) := by simp [timerAt, hb]
      rw [hsame]
      cases e : (timerAt h.mem (some b)).filter Called with
      | none => simp
      | some x =>
        have hx := (timerAt_eq_some.mp (Option.filter_eq_some_iff.mp e).1).1
        simp [Option.filter_some, ← Option.some.inj hx, hb]

/-- A tick calls the pending timers that are due and leaves the others. -/
theorem Drained.pending {cur : Int} {h h' : TimeHeap κ υ} {popped : List (Nat × HeapTimer κ υ)}
    (hd : Drained cur h h' popped) :
    (popped.filter Called).Perm ((pending h).filter fun x => x.2.expire ≤ cur) ∧
      (TimerHeap.pending h').Perm ((TimerHeap.pending h).filter fun x => cur < x.2.expire) := by
  have hperm : (TimerHeap.pending h).Perm (popped.filter Called ++ TimerHeap.pending h') := by
    have := hd.split.filter Called
    rwa [List.filter_append] at this
  have hdue : ∀ x ∈ popped.filter Called, x.2.expire ≤ cur := by
    intro x hx
    exact hd.due x (List.mem_of_mem_filter hx)
  have hlater : ∀ x ∈ TimerHeap.pending h', cur < x.2.expire := by
    intro x hx
    exact hd.later x (List.mem_of_mem_filter hx)
  constructor
  · refine perm_filter_of_split hperm ?_ ?_
    · intro x hx
      simpa using hdue x hx
    · intro x hx
      simpa using hlater x hx
  · refine perm_filter_of_split (hperm.trans List.perm_append_comm) ?_ ?_
    · intro x hx
      simpa using hlater x hx
    · intro x hx
      simpa using hdue x hx

end

end TimerHeap
end Unpvol1
