import Unpvol1.Timer.HeapTick
import Unpvol1.Timer.LstRuns

/-!
# Timer.ListHeap

A `sort_timer_lst` and a `time_heap` given the same timers.

* `Entry`       — a timer: its addresses in the two containers and its fields.
* `machine`     — both containers step by step, beside the entries neither deleted nor expired.
* `InStep`      — the list holds exactly these entries, the heap has exactly these left to call;
  every operation keeps it (`inStep_step`), whatever deleted timers are still in the heap.
* `ticks_agree` — so each tick calls the same timers in both, each once and in order.
-/

namespace Unpvol1
namespace ListHeap

open LstTimer (UtilTimer SortTimerLst Held)
open TimerHeap (HeapTimer TimeHeap HeapState held pending)

structure Entry (κ υ : Type) where
  tl : Nat
  th : Nat
  data : UtilTimer κ υ

inductive Op (κ υ : Type) where
  | add (x : Entry κ υ)
  | del (x : Entry κ υ)
  | tick (cur : Int)

/-- The containers, or `none` once an operation had no result, and the pending entries. -/
structure Pair (κ υ : Type) where
  lst : Option (SortTimerLst κ υ)
  heap : Option (TimeHeap κ υ)
  live : List (Entry κ υ)

section
variable {κ υ : Type}

def inLst (x : Entry κ υ) : Nat × UtilTimer κ υ := (x.tl, x.data)

def inHeap (x : Entry κ υ) : Nat × HeapTimer κ υ :=
  (x.th, ⟨x.data.expire, some x.data.cbFunc, x.data.userData⟩)

def onLst : Op κ υ → LstTimer.Op κ υ
  | .add x => .add x.tl x.data
  | .del x => .del x.tl
  | .tick cur => .tick cur

def execHeap (h : TimeHeap κ υ) : Op κ υ → Option (TimeHeap κ υ)
  | .add x => do
    let h ← TimerHeap.exec h (.new x.th (inHeap x).2)
    TimerHeap.exec h (.add (some x.th))
  | .del x => TimerHeap.exec h (.del (some x.th))
  | .tick cur => (TimerHeap.tick cur h).map Prod.fst

def expected (live : List (Entry κ υ)) : Op κ υ → List (Entry κ υ)
  | .add x => x :: live
  | .del x => live.filter fun y => y.tl ≠ x.tl
  | .tick cur => live.filter fun y => cur < y.data.expire

/-- An added timer is new in both containers, a deleted one is pending. -/
def Allowed (s : Pair κ υ) : Op κ υ → Prop
  | .add x => x.tl ∉ s.live.map Entry.tl ∧ ∀ h, s.heap = some h → h.mem x.th = none
  | .del x => x ∈ s.live
  | .tick _ => True

def machine : Machine (Pair κ υ) (Op κ υ) where
  step s op :=
    { lst := s.lst.bind (LstTimer.exec · (onLst op))
      heap := s.heap.bind (execHeap · op)
      live := expected s.live op }
  ok := Allowed

def start (cap : Nat) : Pair κ υ where
  lst := some LstTimer.init
  heap := some (TimerHeap.init cap fun _ => none)
  live := []

/-- What a tick at `cur` calls in the two containers is, in both, each of the pending entries that
are due, once, by non-decreasing `expire`. -/
structure SameCalls (cur : Int) (live : List (Entry κ υ)) (inL : List (Nat × UtilTimer κ υ))
    (inH : List (Nat × HeapTimer κ υ)) : Prop where
  lst : inL.Perm ((live.filter fun x => x.data.expire ≤ cur).map inLst)
  heap : inH.Perm ((live.filter fun x => x.data.expire ≤ cur).map inHeap)
  lstOnce : (inL.map Prod.fst).Nodup
  heapOnce : (inH.map Prod.fst).Nodup
  lstSorted : SortedBy LstTimer.dueAt inL
  heapSorted : SortedBy TimerHeap.dueAt inH

/-! ## The two containers in step -/

/-- The heap has exactly the entries `live` left to call. -/
structure HeapHolds (h : TimeHeap κ υ) (live : List (Entry κ υ)) : Prop where
  state : HeapState h
  nodup : (held h).Nodup
  pending : (pending h).Perm (live.map inHeap)
  once : (live.map Entry.th).Nodup

structure InStep (s : Pair κ υ) : Prop where
  lst : Held { lst := s.lst, pending := s.live.map inLst }
  heap : ∃ h, s.heap = some h ∧ HeapHolds h s.live

theorem expected_map (live : List (Entry κ υ)) (op : Op κ υ) :
    LstTimer.expected (live.map inLst) (onLst op) = (expected live op).map inLst := by
  cases op with
  | add x => rfl
  | del x => exact List.filter_map
  | tick cur => exact List.filter_map

theorem keys_inLst (live : List (Entry κ υ)) :
    DList.keys (live.map inLst) = live.map Entry.tl := by simp [DList.keys, inLst]

theorem keys_inHeap (live : List (Entry κ υ)) :
    (live.map inHeap).map Prod.fst = live.map Entry.th := by simp [inHeap]

/-- The list keeps holding the pending entries. -/
theorem held_lst {s : Pair κ υ} (h : InStep s) {op : Op κ υ} (hok : machine.ok s op) :
    Held { lst := (machine.step s op).lst, pending := (machine.step s op).live.map inLst } := by
  have hstep := LstTimer.held_step _ (onLst op) h.lst
  have hallowed : LstTimer.Allowed (s.live.map inLst) (onLst op) := by
    cases op with
    | add x =>
      show x.tl ∉ DList.keys (s.live.map inLst)
      rw [keys_inLst]
      exact hok.1
    | del x =>
      show x.tl ∈ DList.keys (s.live.map inLst)
      rw [keys_inLst]
      exact List.mem_map_of_mem hok
    | tick cur => trivial
  have := hstep hallowed
  show Held ⟨s.lst.bind (LstTimer.exec · (onLst op)), (expected s.live op).map inLst⟩
  rw [← expected_map]
  exact this

theorem HeapHolds.add {h : TimeHeap κ υ} {live : List (Entry κ υ)} (hh : HeapHolds h live)
    {x : Entry κ υ} (hx : h.mem x.th = none) :
    ∃ h', execHeap h (.add x) = some h' ∧ HeapHolds h' (x :: live) := by
  have hs := hh.state.new hx (inHeap x).2
  have hmem : Function.update h.mem x.th (some (inHeap x).2) x.th = some (inHeap x).2 := by simp
  obtain ⟨h', e, hs', hmem', hheld⟩ :=
    TimerHeap.addTimer_spec hs (show TimerHeap.Live _ (some x.th) from ⟨x.th, _, rfl, hmem⟩)
  have hfresh : some x.th ∉ held h := by
    intro hin
    obtain ⟨a, t, ha, ht⟩ := hh.state.live_held hin
    rw [← Option.some.inj ha, hx] at ht
    cases ht
  have hpend := TimerHeap.pending_add hmem (by rfl) hmem' hheld
  rw [TimerHeap.pending_new hh.state hx] at hpend
  refine ⟨h', e, hs', ?_, hpend.trans (hh.pending.cons _), ?_⟩
  · exact hheld.nodup_iff.mpr (List.nodup_cons.mpr ⟨hfresh, hh.nodup⟩)
  · refine List.nodup_cons.mpr ⟨?_, hh.once⟩
    intro hin
    obtain ⟨y, hy, e⟩ := List.mem_map.mp hin
    have hin' := hh.pending.mem_iff.mpr (List.mem_map_of_mem (f := inHeap) hy)
    have hlive := (TimerHeap.mem_timers.mp (List.mem_of_mem_filter hin')).1
    exact hfresh (e ▸ hlive)

theorem HeapHolds.del {h : TimeHeap κ υ} {live : List (Entry κ υ)} (hh : HeapHolds h live)
    (hl : (live.map Entry.tl).Nodup) {x : Entry κ υ} (hx : x ∈ live) :
    ∃ h', execHeap h (.del x) = some h' ∧ HeapHolds h' (live.filter fun y => y.tl ≠ x.tl) := by
  have hin := hh.pending.mem_iff.mpr (List.mem_map_of_mem (f := inHeap) hx)
  have hmem := (TimerHeap.mem_timers.mp (List.mem_of_mem_filter hin)).2
  obtain ⟨h', e, hs', rfl⟩ := TimerHeap.delTimer_spec hh.state hmem
  refine ⟨_, e, hs', hh.nodup, ?_, ?_⟩
  · rw [TimerHeap.pending_del]
    have hperm := hh.pending.filter fun y => y.1 ≠ (inHeap x).1
    obtain ⟨l₁, l₂, rfl⟩ := List.append_of_mem hx
    rw [List.filter_map] at hperm
    have hth := filter_ne_split hh.once
    have htl := filter_ne_split hl
    rw [htl, ← hth]
    exact hperm
  · exact hh.once.sublist (List.filter_sublist.map _)

/-- A tick calls, of the pending entries, those that are due. -/
theorem HeapHolds.tick {h : TimeHeap κ υ} {live : List (Entry κ υ)} (hh : HeapHolds h live)
    (cur : Int) :
    ∃ h' called, TimerHeap.tick cur h = some (h', called) ∧
      HeapHolds h' (live.filter fun x => cur < x.data.expire) ∧
      called.Perm ((live.filter fun x => x.data.expire ≤ cur).map inHeap) ∧
      SortedBy TimerHeap.dueAt called := by
  obtain ⟨h', popped, e, hd⟩ := TimerHeap.tick_spec cur hh.state hh.nodup
  obtain ⟨hcalled, hleft⟩ := hd.pending
  refine ⟨h', _, e, ⟨hd.state, hd.nodup, ?_, ?_⟩, ?_, ?_⟩
  · have := hleft.trans (hh.pending.filter _)
    rw [List.filter_map] at this
    exact this
  · exact hh.once.sublist (List.filter_sublist.map _)
  · have := hcalled.trans (hh.pending.filter _)
    rw [List.filter_map] at this
    exact this
  · exact List.Pairwise.sublist List.filter_sublist hd.sorted

theorem InStep.lstOnce {s : Pair κ υ} (h : InStep s) : (s.live.map Entry.tl).Nodup := by
  obtain ⟨lst, l, -, hrepr, -, hperm⟩ := h.lst
  rw [← keys_inLst]
  exact (hperm.map Prod.fst).nodup_iff.mp hrepr.nodup

theorem inStep_step (s : Pair κ υ) (op : Op κ υ) (h : InStep s) (hok : machine.ok s op) :
    InStep (machine.step s op) := by
  obtain ⟨th, hth, hh⟩ := h.heap
  refine ⟨held_lst h hok, ?_⟩
  cases op with
  | add x =>
    obtain ⟨h', e, hh'⟩ := hh.add (hok.2 th hth)
    exact ⟨h', by simp [machine, hth, e], hh'⟩
  | del x =>
    obtain ⟨h', e, hh'⟩ := hh.del h.lstOnce hok
    exact ⟨h', by simp [machine, hth, e], hh'⟩
  | tick cur =>
    obtain ⟨h', called, e, hh', -⟩ := hh.tick cur
    exact ⟨h', by simp [machine, hth, execHeap, e], hh'⟩

theorem inStep_start {cap : Nat} (hcap : 1 ≤ cap) : InStep (start cap : Pair κ υ) := by
  refine ⟨⟨LstTimer.init, [], rfl, LstTimer.repr_init, .nil, .nil⟩, ?_⟩
  exact ⟨_, rfl, HeapState.init hcap _, List.nodup_nil, .nil, List.nodup_nil⟩

/-- The list tick of the pending entries, beside the heap tick. -/
theorem InStep.sameCalls {s : Pair κ υ} (h : InStep s) (cur : Int) :
    ∃ lst lst' inL heap heap' inH, s.lst = some lst ∧ s.heap = some heap ∧
      LstTimer.tick cur lst = some (lst', inL) ∧ TimerHeap.tick cur heap = some (heap', inH) ∧
      SameCalls cur s.live inL inH := by
  obtain ⟨lst, l, hlst, hrepr, hsorted, hperm⟩ := h.lst
  obtain ⟨heap, hheap, hh⟩ := h.heap
  obtain ⟨lst', e, -⟩ := LstTimer.tick_repr cur hrepr
  obtain ⟨heap', inH, e', -, hcalled, hsort⟩ := hh.tick cur
  have hinL : (l.takeWhile (LstTimer.Due cur)).Perm
      ((s.live.filter fun x => x.data.expire ≤ cur).map inLst) := by
    have htake : l.takeWhile (LstTimer.Due cur) = l.filter fun x => x.2.expire ≤ cur :=
      hsorted.takeWhile_eq_filter cur
    rw [htake]
    have := hperm.filter fun x => decide (x.2.expire ≤ cur)
    rw [List.filter_map] at this
    exact this
  refine ⟨lst, lst', _, heap, heap', inH, hlst, hheap, e, e', hinL, hcalled, ?_, ?_, ?_, hsort⟩
  · exact hrepr.nodup.sublist ((List.takeWhile_sublist _).map _)
  · rw [(hcalled.map Prod.fst).nodup_iff, keys_inHeap]
    exact hh.once.sublist (List.filter_sublist.map _)
  · exact List.Pairwise.sublist (List.takeWhile_sublist _) hsorted

/-- From an empty list and an empty heap, whatever is added, deleted and ticked: no operation
fails, and each tick calls the same timers in both, each once and by non-decreasing `expire`. The
heap is the one without `int`s: as long as it never holds more than 2^30 timers, the sizes are
`int`s and nothing else happens with them. -/
theorem ticks_agree (cap : Nat) (hcap : 1 ≤ cap) (ops : List (Op κ υ))
    (hv : machine.Valid (start cap) ops) :
    machine.Always (fun s => s.lst ≠ none ∧ s.heap ≠ none) (start cap) ops ∧
      machine.Each (fun s op => ∀ cur, op = .tick cur →
        ∃ lst lst' inL heap heap' inH, s.lst = some lst ∧ s.heap = some heap ∧
          LstTimer.tick cur lst = some (lst', inL) ∧
          TimerHeap.tick cur heap = some (heap', inH) ∧ SameCalls cur s.live inL inH)
        (start cap) ops := by
  have hstart := inStep_start (κ := κ) (υ := υ) hcap
  constructor
  · refine (Machine.always_inv inStep_step hstart hv).imp ?_
    intro s h
    obtain ⟨lst, l, hlst, -⟩ := h.lst
    obtain ⟨heap, hheap, -⟩ := h.heap
    simp [show s.lst = some lst from hlst, hheap]
  · refine Machine.each_inv inStep_step ?_ hstart hv
    intro s op h _ cur _
    exact h.sameCalls cur

/-- Two timers, one of them deleted and so left in the heap, and two ticks. -/
theorem ticks_agree_run :
    machine.Always (fun s => s.lst ≠ none ∧ s.heap ≠ none) (start 1)
        [.add ⟨1, 4, 7, (), ()⟩, .add ⟨2, 5, 3, (), ()⟩, .del ⟨1, 4, 7, (), ()⟩, .tick 3,
          .tick 7] ∧
      machine.Each (fun s op => ∀ cur, op = .tick cur →
        ∃ lst lst' inL heap heap' inH, s.lst = some lst ∧ s.heap = some heap ∧
          LstTimer.tick cur lst = some (lst', inL) ∧
          TimerHeap.tick cur heap = some (heap', inH) ∧ SameCalls cur s.live inL inH)
        (start 1) [.add ⟨1, 4, 7, (), ()⟩, .add ⟨2, 5, 3, (), ()⟩, .del ⟨1, 4, 7, (), ()⟩,
          .tick 3, .tick 7] := by
  refine ticks_agree 1 (Nat.le_refl 1) _ ⟨⟨by simp [start], ?_⟩, ⟨?_, ?_⟩, ?_, trivial, trivial,
    trivial⟩
  · intro h e
    cases e
    rfl
  · simp [machine, expected, start]
  · intro h e
    have hs := (HeapState.init (κ := Unit) (υ := Unit) (Nat.le_refl 1) fun _ => none).new
      (a := 4) rfl ⟨7, some (), ()⟩
    obtain ⟨h', e', -, hmem, -⟩ :=
      TimerHeap.addTimer_spec hs (show TimerHeap.Live _ (some 4) from ⟨4, _, rfl, rfl⟩)
    obtain rfl : h' = h := Option.some.inj (e'.symm.trans e)
    rw [hmem]
    rfl
  · simp [machine, Allowed, expected, start]

end

end ListHeap
end Unpvol1
