import Unpvol1.Timer.LstRuns
import Unpvol1.Timer.TwRuns

/-!
# Timer.ListWheel

A `sort_timer_lst` and a `time_wheel` given the same timers. The list is ticked with the number of
the wheel's tick for the time, and a timer of `timeout` expires one tick after as many ticks as the
wheel makes of it.

* `Pend`        — a pending timer: its addresses in the two containers, its fields, and when the
  list has it expire.
* `InStep`      — the list holds exactly the pending timers, and the wheel brings each of them round
  in as many ticks as are left to its `expire`; every operation keeps it (`inStep_step`).
* `wheel_agrees` — so each tick calls the same timers in both, and leaves the same (`SameLeft`).
-/

namespace Unpvol1
namespace ListWheel

open DList (keys)
open LstTimer (UtilTimer SortTimerLst)
open TwTimer (TimeWheel Timer Wheel timers remaining ticksOf after)

structure Entry (κ υ : Type) where
  tl : Nat
  tw : Nat
  timeout : Int
  cbFunc : κ
  userData : υ

structure Pend (κ υ : Type) where
  entry : Entry κ υ
  expire : Int

inductive Op (κ υ : Type) where
  | add (x : Entry κ υ)
  | del (x : Pend κ υ)
  | tick

/-- The list, or `none` once an operation had no result, the wheel with its count of ticks, and the
pending timers. -/
structure Pair (κ υ : Type) where
  lst : Option (SortTimerLst κ υ)
  run : TwTimer.Run κ υ
  live : List (Pend κ υ)

section
variable {κ υ : Type}

def inLst (x : Pend κ υ) : Nat × UtilTimer κ υ :=
  (x.entry.tl, ⟨x.expire, x.entry.cbFunc, x.entry.userData⟩)

/-- What a tick of the wheel calls for a timer. -/
def inWheel (x : Pend κ υ) : Nat × Option κ × Option υ :=
  (x.entry.tw, some x.entry.cbFunc, some x.entry.userData)

def call (x : Nat × Timer κ υ) : Nat × Option κ × Option υ := (x.1, x.2.cbFunc, x.2.userData)

/-- A timer added after `ticks` ticks. -/
def pend (ticks : Nat) (x : Entry κ υ) : Pend κ υ := ⟨x, ticks + ticksOf x.timeout + 1⟩

def onLst (ticks : Nat) : Op κ υ → LstTimer.Op κ υ
  | .add x => .add x.tl (inLst (pend ticks x)).2
  | .del x => .del x.entry.tl
  | .tick => .tick (ticks + 1)

def onWheel : Op κ υ → TwTimer.Op κ υ
  | .add x => .add x.tw x.timeout x.cbFunc x.userData
  | .del x => .del x.entry.tw
  | .tick => .tick

def expected (ticks : Nat) (live : List (Pend κ υ)) : Op κ υ → List (Pend κ υ)
  | .add x => pend ticks x :: live
  | .del x => live.filter fun y => y.entry.tl ≠ x.entry.tl
  | .tick => live.filter fun y => ticks + 1 < y.expire

/-- An added timer is new in both containers and has a timeout the wheel takes; a deleted one is
pending. -/
def Allowed (s : Pair κ υ) : Op κ υ → Prop
  | .add x => 0 ≤ x.timeout ∧ (∀ y ∈ s.live, y.entry.tl ≠ x.tl) ∧ ∀ y ∈ s.live, y.entry.tw ≠ x.tw
  | .del x => x ∈ s.live
  | .tick => True

def machine : Machine (Pair κ υ) (Op κ υ) where
  step s op :=
    { lst := s.lst.bind (LstTimer.exec · (onLst s.run.ticks op))
      run := TwTimer.machine.step s.run (onWheel op)
      live := expected s.run.ticks s.live op }
  ok := Allowed

def start : Pair κ υ where
  lst := some LstTimer.init
  run := TwTimer.start
  live := []

/-- What tick number `cur` calls in the two containers is, in both, each of the pending timers that
expire at it, once. -/
structure SameCalls (cur : Int) (live : List (Pend κ υ)) (inL : List (Nat × UtilTimer κ υ))
    (inW : List (Nat × Timer κ υ)) : Prop where
  lst : inL.Perm ((live.filter fun x => x.expire ≤ cur).map inLst)
  wheel : (inW.map call).Perm ((live.filter fun x => x.expire ≤ cur).map inWheel)
  lstOnce : (inL.map Prod.fst).Nodup
  wheelOnce : (inW.map Prod.fst).Nodup

/-! ## The two containers in step -/

/-- The wheel at `ticks` has the timer, and as many ticks to go as the list. -/
def Turns (w : TimeWheel κ υ) (ticks : Nat) (x : Pend κ υ) : Prop :=
  ∃ d, timers w x.entry.tw = some d ∧ x.expire = ticks + remaining w d + 1 ∧
    d.cbFunc = some x.entry.cbFunc ∧ d.userData = some x.entry.userData

/-- The wheel holds exactly the timers `live`. -/
structure WheelHolds (w : TimeWheel κ υ) (ticks : Nat) (live : List (Pend κ υ)) : Prop where
  turns : ∀ x ∈ live, Turns w ticks x
  only : ∀ a, timers w a ≠ none → ∃ x ∈ live, x.entry.tw = a
  once : (live.map fun x => x.entry.tw).Nodup

/-- The nodes of the list are the pending timers, and so are those in the slots of the wheel, each
with as many ticks to go as the list has up to its `expire`. -/
structure SameLeft (s : Pair κ υ) : Prop where
  lst : ∃ lst l, s.lst = some lst ∧ LstTimer.Repr lst l ∧ l.Perm (s.live.map inLst)
  wheel : ∃ w L, s.run.wheel = some w ∧ Wheel w L ∧ WheelHolds w s.run.ticks s.live

structure InStep (s : Pair κ υ) : Prop where
  lst : LstTimer.Held { lst := s.lst, pending := s.live.map inLst }
  wheel : ∃ w L, TwTimer.Sound s.run w L ∧ WheelHolds w s.run.ticks s.live

theorem expected_map (ticks : Nat) (live : List (Pend κ υ)) (op : Op κ υ) :
    LstTimer.expected (live.map inLst) (onLst ticks op) = (expected ticks live op).map inLst := by
  cases op with
  | add x => rfl
  | del x => exact List.filter_map
  | tick => exact List.filter_map

theorem keys_inLst (live : List (Pend κ υ)) :
    keys (live.map inLst) = live.map fun x => x.entry.tl := by simp [keys, inLst]

/-- The list keeps holding the pending timers. -/
theorem held_lst {s : Pair κ υ} (h : InStep s) {op : Op κ υ} (hok : machine.ok s op) :
    LstTimer.Held
      { lst := (machine.step s op).lst, pending := (machine.step s op).live.map inLst } := by
  have hallowed : LstTimer.Allowed (s.live.map inLst) (onLst s.run.ticks op) := by
    cases op with
    | add x =>
      show x.tl ∉ keys (s.live.map inLst)
      rw [keys_inLst]
      intro hin
      obtain ⟨y, hy, heq⟩ := List.mem_map.mp hin
      exact hok.2.1 y hy heq
    | del x =>
      show x.entry.tl ∈ keys (s.live.map inLst)
      rw [keys_inLst]
      exact List.mem_map_of_mem hok
    | tick => trivial
  have := LstTimer.held_step _ (onLst s.run.ticks op) h.lst hallowed
  show LstTimer.Held ⟨s.lst.bind (LstTimer.exec · (onLst s.run.ticks op)),
    (expected s.run.ticks s.live op).map inLst⟩
  rw [← expected_map]
  exact this

theorem InStep.lstOnce {s : Pair κ υ} (h : InStep s) :
    (s.live.map fun x => x.entry.tl).Nodup := by
  obtain ⟨lst, l, -, hrepr, -, hperm⟩ := h.lst
  rw [← keys_inLst]
  exact (hperm.map Prod.fst).nodup_iff.mp hrepr.nodup

section
variable {w w' : TimeWheel κ υ} {ticks : Nat} {live : List (Pend κ υ)}

theorem Turns.move {x : Pend κ υ} (h : Turns w ticks x) (hcur : w'.curSlot = w.curSlot)
    (htim : timers w' x.entry.tw = timers w x.entry.tw) : Turns w' ticks x := by
  obtain ⟨d, hd, hexp, hcall⟩ := h
  refine ⟨d, htim.trans hd, ?_, hcall⟩
  rw [hexp]
  simp only [remaining, hcur]

/-- A new timer has `ticksOf timeout` ticks to go, whatever slot it falls into. -/
theorem WheelHolds.add (h : WheelHolds w ticks live) (hslot : TwTimer.IsSlot w.curSlot)
    (hcur : w'.curSlot = w.curSlot) {x : Entry κ υ} (hto : 0 ≤ x.timeout)
    (hfresh : ∀ y ∈ live, y.entry.tw ≠ x.tw)
    (hother : ∀ a, a ≠ x.tw → timers w' a = timers w a)
    (hself : timers w' x.tw =
      some (TwTimer.setCall x.cbFunc x.userData (TwTimer.newTimer w x.timeout))) :
    WheelHolds w' ticks (pend ticks x :: live) := by
  refine ⟨fun y hy => ?_, fun a ha => ?_, ?_⟩
  · rcases List.mem_cons.mp hy with rfl | hy
    · refine ⟨_, hself, ?_, rfl, rfl⟩
      have hrem := TwTimer.remaining_newTimer hslot hto
      simp only [remaining, TwTimer.setCall, hcur] at hrem ⊢
      simp only [pend]
      omega
    · exact (h.turns y hy).move hcur (hother _ (hfresh y hy))
  · by_cases hax : a = x.tw
    · exact ⟨_, List.mem_cons_self, hax.symm⟩
    · rw [hother a hax] at ha
      obtain ⟨y, hy, rfl⟩ := h.only a ha
      exact ⟨y, List.mem_cons_of_mem _ hy, rfl⟩
  · rw [List.map_cons, List.nodup_cons]
    refine ⟨fun hin => ?_, h.once⟩
    obtain ⟨y, hy, heq⟩ := List.mem_map.mp hin
    exact hfresh y hy heq

theorem WheelHolds.del (h : WheelHolds w ticks live) (hcur : w'.curSlot = w.curSlot)
    (hl : (live.map fun x => x.entry.tl).Nodup) {x : Pend κ υ} (hx : x ∈ live)
    (htim : timers w' = Function.update (timers w) x.entry.tw none) :
    WheelHolds w' ticks (live.filter fun y => y.entry.tl ≠ x.entry.tl) := by
  have hkeep : ∀ y ∈ live, y.entry.tl ≠ x.entry.tl ↔ y.entry.tw ≠ x.entry.tw := by
    intro y hy
    refine not_congr ⟨fun heq => ?_, fun heq => ?_⟩
    · rw [List.inj_on_of_nodup_map hl hy hx heq]
    · rw [List.inj_on_of_nodup_map h.once hy hx heq]
  refine ⟨fun y hy => ?_, fun a ha => ?_, h.once.sublist (List.filter_sublist.map _)⟩
  · obtain ⟨hy, hne⟩ := List.mem_filter.mp hy
    refine (h.turns y hy).move hcur ?_
    rw [htim, Function.update_of_ne ((hkeep y hy).mp (by simpa using hne))]
  · have hax : a ≠ x.entry.tw := by
      rintro rfl
      simp [htim] at ha
    rw [htim, Function.update_of_ne hax] at ha
    obtain ⟨y, hy, rfl⟩ := h.only a ha
    exact ⟨y, List.mem_filter.mpr ⟨hy, by simpa using (hkeep y hy).mpr hax⟩, rfl⟩

/-- A tick calls the timers that expire at it, and brings the others one closer. -/
theorem WheelHolds.tick (h : WheelHolds w ticks live) {L : Int → List (Nat × Timer κ υ)}
    (hw : Wheel w L) (hcur : w'.curSlot = (w.curSlot + 1).tmod TwTimer.N)
    (htim : ∀ a, timers w' a = (timers w a).bind (after w.curSlot)) :
    WheelHolds w' (ticks + 1) (live.filter fun x => ticks + 1 < x.expire) := by
  refine ⟨fun x hx => ?_, fun a ha => ?_, h.once.sublist (List.filter_sublist.map _)⟩
  · obtain ⟨hx, hlate⟩ := List.mem_filter.mp hx
    have hlate : (ticks : Int) + 1 < x.expire := by simpa using hlate
    obtain ⟨d, hd, hexp, hc, hu⟩ := h.turns x hx
    obtain ⟨-, -, hzero, -⟩ | ⟨d', haft, hrem, hc', hu'⟩ :=
      TwTimer.remaining_after hw.cur hcur (hw.fits hd)
    · omega
    · refine ⟨d', by rw [htim, hd]; exact haft, ?_, hc'.trans hc, hu'.trans hu⟩
      omega
  · rw [htim] at ha
    obtain ⟨d', hd'⟩ := Option.ne_none_iff_exists'.mp ha
    obtain ⟨d, hd, haft⟩ := Option.bind_eq_some_iff.mp hd'
    obtain ⟨x, hx, rfl⟩ := h.only a (by simp [hd])
    obtain ⟨d₀, hd₀, hexp, -⟩ := h.turns x hx
    obtain rfl : d₀ = d := Option.some.inj (hd₀.symm.trans hd)
    refine ⟨x, List.mem_filter.mpr ⟨hx, ?_⟩, rfl⟩
    obtain ⟨-, -, -, hnone⟩ | ⟨d', -, hrem, -⟩ :=
      TwTimer.remaining_after hw.cur hcur (hw.fits hd)
    · rw [hnone] at haft
      cases haft
    · have : (ticks : Int) + 1 < x.expire := by omega
      simpa using this

/-- What the wheel calls, against the pending timers that expire. -/
theorem WheelHolds.called (h : WheelHolds w ticks live) {L : Int → List (Nat × Timer κ υ)}
    (hw : Wheel w L) (hcur : w'.curSlot = (w.curSlot + 1).tmod TwTimer.N)
    {called : List (Nat × Timer κ υ)}
    (hcalled : ∀ a d, (a, d) ∈ called ↔ timers w a = some d ∧ d.timeSlot = w.curSlot ∧
      d.rotation ≤ 0) (honce : (keys called).Nodup) :
    (called.map call).Perm ((live.filter fun x => x.expire ≤ (ticks : Int) + 1).map inWheel) := by
  have hnd : (called.map call).Nodup := by
    refine List.Nodup.of_map Prod.fst ?_
    rw [List.map_map]
    exact honce
  have hnd' : ((live.filter fun x => x.expire ≤ (ticks : Int) + 1).map inWheel).Nodup := by
    refine List.Nodup.of_map Prod.fst ?_
    rw [List.map_map]
    exact h.once.sublist (List.filter_sublist.map _)
  refine (List.perm_ext_iff_of_nodup hnd hnd').mpr fun y => ?_
  simp only [List.mem_map, List.mem_filter, decide_eq_true_eq]
  constructor
  · rintro ⟨⟨a, d⟩, hin, rfl⟩
    obtain ⟨hd, hslot, hrot⟩ := (hcalled a d).mp hin
    obtain ⟨x, hx, rfl⟩ := h.only a (by simp [hd])
    obtain ⟨d₀, hd₀, hexp, hc, hu⟩ := h.turns x hx
    obtain rfl : d₀ = d := Option.some.inj (hd₀.symm.trans hd)
    refine ⟨x, ⟨hx, ?_⟩, by simp [inWheel, call, hc, hu]⟩
    obtain ⟨-, -, hzero, -⟩ | ⟨d', haft, -⟩ := TwTimer.remaining_after hw.cur hcur (hw.fits hd)
    · omega
    · rw [after, if_pos hslot, if_pos hrot] at haft
      cases haft
  · rintro ⟨x, ⟨hx, hdue⟩, rfl⟩
    obtain ⟨d, hd, hexp, hc, hu⟩ := h.turns x hx
    refine ⟨(x.entry.tw, d), ?_, by simp [inWheel, call, hc, hu]⟩
    obtain ⟨hslot, hrot, -⟩ | ⟨d', -, hrem, -⟩ :=
      TwTimer.remaining_after hw.cur hcur (hw.fits hd)
    · exact (hcalled _ _).mpr ⟨hd, hslot, hrot⟩
    · omega

end

theorem inStep_step (s : Pair κ υ) (op : Op κ υ) (h : InStep s) (hok : machine.ok s op) :
    InStep (machine.step s op) := by
  obtain ⟨w, L, hs, hh⟩ := h.wheel
  refine ⟨held_lst h hok, ?_⟩
  cases op with
  | add x =>
    obtain ⟨hto, _, hfresh⟩ := hok
    have hnone : timers w x.tw = none := by
      by_contra hne
      obtain ⟨y, hy, heq⟩ := hh.only _ hne
      exact hfresh y hy heq
    obtain ⟨w', L', hs', hcur, hother, hself⟩ :=
      TwTimer.sound_add hs hnone x.timeout x.cbFunc x.userData
    exact ⟨w', L', hs', hh.add hs.wheel.cur hcur hto hfresh hother (hself hto)⟩
  | del x =>
    obtain ⟨d, hd, -⟩ := hh.turns x hok
    obtain ⟨w', L', hs', hcur, htim⟩ := TwTimer.sound_del hs (t := x.entry.tw) (by simp [hd])
    exact ⟨w', L', hs', hh.del hcur h.lstOnce hok htim⟩
  | tick =>
    obtain ⟨w', L', called, hs', hcur, htim, -, -, hstep⟩ := TwTimer.sound_tick hs
    have hticks : (machine.step s .tick).run.ticks = s.run.ticks + 1 := by
      show (TwTimer.machine.step s.run .tick).ticks = _
      rw [hstep]
    refine ⟨w', L', hs', ?_⟩
    rw [hticks]
    exact hh.tick hs.wheel hcur htim

theorem inStep_start : InStep (start : Pair κ υ) := by
  refine ⟨⟨LstTimer.init, [], rfl, LstTimer.repr_init, .nil, .nil⟩, TwTimer.init, _,
    TwTimer.sound_start, ?_⟩
  exact ⟨fun x hx => (by cases hx), fun a ha => absurd rfl ha, List.nodup_nil⟩

theorem InStep.sameLeft {s : Pair κ υ} (h : InStep s) : SameLeft s := by
  obtain ⟨lst, l, hlst, hrepr, -, hperm⟩ := h.lst
  obtain ⟨w, L, hs, hh⟩ := h.wheel
  exact ⟨⟨lst, l, hlst, hrepr, hperm⟩, w, L, hs.running, hs.wheel, hh⟩

/-- A tick of the list and a tick of the wheel. -/
theorem InStep.sameCalls {s : Pair κ υ} (h : InStep s) :
    ∃ lst lst' inL w w' inW, s.lst = some lst ∧ s.run.wheel = some w ∧
      LstTimer.tick (s.run.ticks + 1) lst = some (lst', inL) ∧ TwTimer.tick w = some (w', inW) ∧
      SameCalls (s.run.ticks + 1) s.live inL inW := by
  obtain ⟨lst, l, hlst, hrepr, hsorted, hperm⟩ := h.lst
  obtain ⟨w, L, hs, hh⟩ := h.wheel
  obtain ⟨lst', e, -⟩ := LstTimer.tick_repr (s.run.ticks + 1) hrepr
  obtain ⟨w', L', inW, e', -, hcur, -, hcalled, honce⟩ :=
    TwTimer.tick_wheel hs.wheel hs.callable
  have hinL : (l.takeWhile (LstTimer.Due (s.run.ticks + 1))).Perm
      ((s.live.filter fun x => x.expire ≤ (s.run.ticks : Int) + 1).map inLst) := by
    have htake : l.takeWhile (LstTimer.Due (s.run.ticks + 1)) =
        l.filter fun x => x.2.expire ≤ (s.run.ticks : Int) + 1 := hsorted.takeWhile_eq_filter _
    rw [htake]
    have := hperm.filter fun x => decide (x.2.expire ≤ (s.run.ticks : Int) + 1)
    rw [List.filter_map] at this
    exact this
  refine ⟨lst, lst', _, w, w', inW, hlst, hs.running, e, e', hinL,
    hh.called hs.wheel hcur hcalled honce, ?_, honce⟩
  exact hrepr.nodup.sublist ((List.takeWhile_sublist _).map _)

/-- From an empty list and an empty wheel, whatever is added, deleted and ticked: no operation
fails, what is left in the two is the same, and each tick calls the same timers in both, each once.
The wheel with its slots and rotations is the sorted list with a clock that counts ticks, one tick
late. -/
theorem wheel_agrees (ops : List (Op κ υ)) (hv : machine.Valid start ops) :
    machine.Always (fun s => s.lst ≠ none ∧ s.run.wheel ≠ none ∧ SameLeft s) start ops ∧
      machine.Each (fun s op => op = .tick →
        ∃ lst lst' inL w w' inW, s.lst = some lst ∧ s.run.wheel = some w ∧
          LstTimer.tick (s.run.ticks + 1) lst = some (lst', inL) ∧
          TwTimer.tick w = some (w', inW) ∧ SameCalls (s.run.ticks + 1) s.live inL inW)
        start ops := by
  constructor
  · refine (Machine.always_inv inStep_step inStep_start hv).imp fun s h => ?_
    have hleft := h.sameLeft
    obtain ⟨lst, _, hlst, -⟩ := hleft.lst
    obtain ⟨w, _, hw, -⟩ := hleft.wheel
    exact ⟨by simp [hlst], by simp [hw], hleft⟩
  · refine Machine.each_inv inStep_step ?_ inStep_start hv
    intro s op h _ _
    exact h.sameCalls

/-- Two timers, one of them deleted, and three ticks, the last of which calls the other. -/
theorem wheel_agrees_run :
    machine.Always (fun s => s.lst ≠ none ∧ s.run.wheel ≠ none ∧ SameLeft s) start
        [.add ⟨1, 4, 2, (), ()⟩, .add ⟨2, 5, 60, (), ()⟩, .del ⟨⟨2, 5, 60, (), ()⟩, 61⟩, .tick,
          .tick, .tick] ∧
      machine.Each (fun s op => op = .tick →
        ∃ lst lst' inL w w' inW, s.lst = some lst ∧ s.run.wheel = some w ∧
          LstTimer.tick (s.run.ticks + 1) lst = some (lst', inL) ∧
          TwTimer.tick w = some (w', inW) ∧ SameCalls (s.run.ticks + 1) s.live inL inW)
        start [.add ⟨1, 4, 2, (), ()⟩, .add ⟨2, 5, 60, (), ()⟩, .del ⟨⟨2, 5, 60, (), ()⟩, 61⟩,
          .tick, .tick, .tick] := by
  refine wheel_agrees _ ⟨⟨by decide, ?_, ?_⟩, ⟨by decide, ?_, ?_⟩, ?_, trivial, trivial, trivial,
    trivial⟩
  · intro y hy
    cases hy
  · intro y hy
    cases hy
  · intro y hy
    rw [List.mem_singleton.mp hy]
    decide
  · intro y hy
    rw [List.mem_singleton.mp hy]
    decide
  · exact List.mem_cons.mpr (.inl rfl)

end

end ListWheel
end Unpvol1
