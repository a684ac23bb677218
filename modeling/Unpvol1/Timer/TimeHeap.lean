import Mathlib.Data.Int.Order.Basic
import Unpvol1.Lib.BinHeap
import Unpvol1.Lib.DList
import Unpvol1.Lib.Loop
import Unpvol1.Lib.Machine

/-!
# Timer.TimeHeap

The timer heap (`time_heap`): an array of pointers to timers, smallest `expire` first. Reading or
writing past the array, or through NULL or a deleted timer, has no result.

* `HeapState h` — the array is large enough, its first `cur_size` entries are timers, in heap order.
* `addLoop_eq`, `percolateLoop_eq` — moving the hole is `siftUp` and `siftDown` of `BinHeap`.
* `addTimer_spec`, `delTimer_spec`, `popTimer_spec` — the operations on such a heap.
-/

namespace Unpvol1
namespace TimerHeap

open BinHeap Loop Slots

structure HeapTimer (κ υ : Type) where
  expire : Int
  cbFunc : Option κ
  userData : υ
deriving DecidableEq

/-- `array` has `capacity` entries; `mem` holds the timers. -/
structure TimeHeap (κ υ : Type) where
  array : Nat → Ptr
  capacity : Nat
  curSize : Nat
  mem : Nat → Option (HeapTimer κ υ)

section
variable {κ υ : Type}

def load (h : TimeHeap κ υ) (p : Ptr) : Option (HeapTimer κ υ) := p.bind h.mem

/-- `array[i]`. -/
def get (h : TimeHeap κ υ) (i : Nat) : Option Ptr :=
  if i < h.capacity then some (h.array i) else none

/-- `array[i] = p`. -/
def set (h : TimeHeap κ υ) (i : Nat) (p : Ptr) : Option (TimeHeap κ υ) :=
  if i < h.capacity then some { h with array := Function.update h.array i p } else none

/-- `array[i]->expire`. -/
def expireAt (h : TimeHeap κ υ) (i : Nat) : Option Int := do
  let p ← get h i
  let t ← load h p
  some t.expire

/-- `time_heap( cap )`. -/
def init (cap : Nat) (mem : Nat → Option (HeapTimer κ υ)) : TimeHeap κ υ where
  array := fun _ => none
  capacity := cap
  curSize := 0
  mem := mem

/-- Twice the capacity; the entries past `cur_size` become NULL. -/
def resize (h : TimeHeap κ υ) : TimeHeap κ υ :=
  { h with
    array := fun i => if i < h.curSize then h.array i else none
    capacity := 2 * h.capacity }

/-- The loop of `add_timer` and the write after it. -/
def addLoop (h : TimeHeap κ υ) (timer : Ptr) (hole : Nat) : Option (TimeHeap κ υ) := do
  if _h : hole > 0 then
    let parent := (hole - 1) / 2
    let e ← expireAt h parent
    let t ← load h timer
    if e ≤ t.expire then
      set h hole timer
    else
      let p ← get h parent
      let h ← set h hole p
      addLoop h timer parent
  else
    set h hole timer
termination_by hole
decreasing_by omega

def addTimer (h : TimeHeap κ υ) (timer : Ptr) : Option (TimeHeap κ υ) :=
  if timer = none then
    some h
  else
    let h := if h.curSize ≥ h.capacity then resize h else h
    addLoop { h with curSize := h.curSize + 1 } timer h.curSize

/-- The timer stays in the array, without a callback. -/
def delTimer (h : TimeHeap κ υ) (timer : Ptr) : Option (TimeHeap κ υ) := do
  if timer = none then
    some h
  else
    let a ← timer
    let t ← h.mem a
    some { h with mem := Function.update h.mem a (some { t with cbFunc := none }) }

/-- The child `percolate_down` goes to; the right one is looked at only when there is one. -/
def chooseChild (h : TimeHeap κ υ) (hole : Nat) : Option Nat := do
  let child := hole * 2 + 1
  if child + 1 < h.curSize then
    let r ← expireAt h (child + 1)
    let l ← expireAt h child
    some (if r < l then child + 1 else child)
  else
    some child

/-- One turn of the loop of `percolate_down`, and the write after it; `percolateLoop` is the loop
from the next turn on. -/
def percolateIter (temp : Ptr) (percolateLoop : TimeHeap κ υ → Nat → Option (TimeHeap κ υ))
    (h : TimeHeap κ υ) (hole : Nat) : Option (TimeHeap κ υ) := do
  -- `hole*2+1 <= cur_size-1`, where `cur_size` may be 0
  if hole * 2 + 1 < h.curSize then
    let child ← chooseChild h hole
    let c ← expireAt h child
    let t ← load h temp
    if c < t.expire then
      let p ← get h child
      let h ← set h hole p
      percolateLoop h child
    else
      set h hole temp
  else
    set h hole temp

def percolateBody (temp : Ptr) : Body (TimeHeap κ υ) Nat (TimeHeap κ υ) where
  iter := percolateIter temp
  mono f g hfg h hole := by
    unfold percolateIter
    refine .ite ?_ (.refl _)
    refine .bind _ fun child => .bind _ fun c => .bind _ fun t => .ite ?_ (.refl _)
    exact .bind _ fun p => .bind _ fun h => hfg _ _

/-- The loop of `percolate_down` and the write after it. -/
def percolateLoop (h : TimeHeap κ υ) (temp : Ptr) (hole : Nat) : Option (TimeHeap κ υ) :=
  (percolateBody temp).run h hole

theorem percolateLoop_turn (h : TimeHeap κ υ) (temp : Ptr) (hole : Nat) :
    percolateLoop h temp hole = percolateIter temp (percolateLoop · temp) h hole :=
  (percolateBody temp).run_eq h hole

def percolateDown (h : TimeHeap κ υ) (hole : Nat) : Option (TimeHeap κ υ) := do
  let temp ← get h hole
  percolateLoop h temp hole

def popTimer (h : TimeHeap κ υ) : Option (TimeHeap κ υ) := do
  if h.curSize = 0 then
    some h
  else
    let p ← get h 0
    match p with
    | none => some h
    | some a =>
      let _ ← h.mem a
      let h := { h with mem := Function.update h.mem a none, curSize := h.curSize - 1 }
      let last ← get h h.curSize
      let h ← set h 0 last
      percolateDown h 0

/-- One turn of the loop of `tick`; `tickLoop` is the loop from the next turn on. -/
def tickIter (cur : Int)
    (tickLoop : TimeHeap κ υ → Ptr → Option (TimeHeap κ υ × List (Nat × HeapTimer κ υ)))
    (h : TimeHeap κ υ) (tmp : Ptr) : Option (TimeHeap κ υ × List (Nat × HeapTimer κ υ)) := do
  if h.curSize = 0 then
    some (h, [])
  else
    match tmp with
    | none => some (h, [])
    | some _ =>
      let t ← load h tmp
      if t.expire > cur then
        some (h, [])
      else
        let p ← get h 0
        let a ← p
        let t ← h.mem a
        let h ← popTimer h
        let tmp ← get h 0
        let (h, called) ← tickLoop h tmp
        some (h, if t.cbFunc.isSome = true then (a, t) :: called else called)

def tickBody (cur : Int) :
    Body (TimeHeap κ υ) Ptr (TimeHeap κ υ × List (Nat × HeapTimer κ υ)) where
  iter := tickIter cur
  mono f g hfg h tmp := by
    unfold tickIter
    refine .ite (.refl _) ?_
    cases tmp with
    | none => exact .refl _
    | some _ =>
      refine .bind _ fun t => .ite (.refl _) ?_
      refine .bind _ fun p => .bind _ fun a => .bind _ fun t => ?_
      exact .bind _ fun h => .bind _ fun tmp => .bind_rest (hfg _ _) _

/-- The loop of `tick`, with the timers whose `cb_func( user_data )` it calls, in order. -/
def tickLoop (cur : Int) (h : TimeHeap κ υ) (tmp : Ptr) :
    Option (TimeHeap κ υ × List (Nat × HeapTimer κ υ)) :=
  (tickBody cur).run h tmp

theorem tickLoop_turn (cur : Int) (h : TimeHeap κ υ) (tmp : Ptr) :
    tickLoop cur h tmp = tickIter cur (tickLoop cur) h tmp :=
  (tickBody cur).run_eq h tmp

def tick (cur : Int) (h : TimeHeap κ υ) :
    Option (TimeHeap κ υ × List (Nat × HeapTimer κ υ)) := do
  let tmp ← get h 0
  tickLoop cur h tmp

/-! ## Heaps in order -/

def expireOf (mem : Nat → Option (HeapTimer κ υ)) (p : Ptr) : Int :=
  match p.bind mem with
  | some t => t.expire
  | none => 0

/-- The pointer leads to a timer. -/
def Live (mem : Nat → Option (HeapTimer κ υ)) (p : Ptr) : Prop :=
  ∃ a t, p = some a ∧ mem a = some t

structure HeapState (h : TimeHeap κ υ) : Prop where
  capacity : 1 ≤ h.capacity
  size : h.curSize ≤ h.capacity
  live : ∀ i < h.curSize, Live h.mem (h.array i)
  order : Ordered (expireOf h.mem) h.array h.curSize

theorem Live.load {h : TimeHeap κ υ} {p : Ptr} (hp : Live h.mem p) :
    ∃ t, load h p = some t ∧ t.expire = expireOf h.mem p := by
  obtain ⟨a, t, rfl, ha⟩ := hp
  exact ⟨t, by simp [TimerHeap.load, ha], by simp [expireOf, ha]⟩

theorem expireAt_eq {h : TimeHeap κ υ} {i : Nat} (hi : i < h.capacity)
    (hl : Live h.mem (h.array i)) : expireAt h i = some (expireOf h.mem (h.array i)) := by
  obtain ⟨t, e, he⟩ := hl.load
  simp [expireAt, get, hi, e, he]

theorem update_move (v : Nat → Ptr) (x : Ptr) {i j : Nat} (h : j ≠ i) :
    Function.update (Function.update v i (v j)) j x = swap (Function.update v i x) i j := by
  funext k
  by_cases hj : k = j
  · subst hj
    simp
  · by_cases hi : k = i
    · subst hi
      simp [hj, h]
    · simp [hi, hj, swap_other]

/-- The hole of `add_timer` moves up the way `siftUp` does. -/
theorem addLoop_eq {h : TimeHeap κ υ} {timer : Ptr} {hole : Nat} (hcap : hole < h.capacity)
    (ht : Live h.mem timer) (hl : ∀ i < hole, Live h.mem (h.array i)) :
    addLoop h timer hole = some
      { h with
        array := siftUp (expireOf h.mem) (Function.update h.array hole timer) hole } := by
  induction hole using Nat.strongRecOn generalizing h with
  | ind hole ih =>
    rw [addLoop, siftUp]
    by_cases h0 : hole = 0
    · simp [h0, set, show 0 < h.capacity by omega]
    · have hp := parent_lt h0
      have hpar : (hole - 1) / 2 = parent hole := rfl
      obtain ⟨t, et, htx⟩ := ht.load
      have hpl := hl (parent hole) hp
      have he := expireAt_eq (h := h) (i := parent hole) (by omega) hpl
      have hne : parent hole ≠ hole := by omega
      have hpos : hole > 0 := by omega
      simp only [hpar, hpos, dite_true, he, et, htx, Option.bind_eq_bind, Option.bind_some]
      by_cases hle : expireOf h.mem (h.array (parent hole)) ≤ expireOf h.mem timer
      · simp [hle, h0, hne, set, hcap]
      · have hstep := ih (parent hole) hp
          (h := { h with array := Function.update h.array hole (h.array (parent hole)) })
          (by show parent hole < h.capacity; omega) ht
          (by
            intro i hi
            have hih : i ≠ hole := by omega
            simpa [hih] using hl i (by omega))
        simp only [update_move h.array timer hne] at hstep
        simp [hle, h0, hne, get, set, hcap, show parent hole < h.capacity by omega, hstep]

theorem chooseChild_eq {h : TimeHeap κ υ} {hole : Nat} (temp : Ptr)
    (hsize : h.curSize ≤ h.capacity) (hc : hole * 2 + 1 < h.curSize)
    (hl : ∀ i < h.curSize, i ≠ hole → Live h.mem (h.array i)) :
    chooseChild h hole = some
      (child (expireOf h.mem) (Function.update h.array hole temp) h.curSize hole) := by
  have h₁ : hole * 2 + 1 ≠ hole := by omega
  have h₂ : hole * 2 + 1 + 1 ≠ hole := by omega
  unfold chooseChild child
  by_cases hr : hole * 2 + 1 + 1 < h.curSize
  · have el := expireAt_eq (h := h) (i := hole * 2 + 1) (by omega) (hl _ (by omega) h₁)
    have er := expireAt_eq (h := h) (i := hole * 2 + 1 + 1) (by omega) (hl _ hr h₂)
    simp [hr, el, er, h₁, h₂]
  · simp [hr]

/-- The hole of `percolate_down` moves down the way `siftDown` does. -/
theorem percolateLoop_eq {h : TimeHeap κ υ} {temp : Ptr} {hole : Nat}
    (hcap : hole < h.capacity) (hsize : h.curSize ≤ h.capacity)
    (ht : hole < h.curSize → Live h.mem temp)
    (hl : ∀ i < h.curSize, i ≠ hole → Live h.mem (h.array i)) :
    percolateLoop h temp hole = some
      { h with
        array :=
          siftDown (expireOf h.mem) (Function.update h.array hole temp) h.curSize hole } := by
  induction hn : h.curSize - hole using Nat.strongRecOn generalizing h hole with
  | ind n ih =>
    rw [percolateLoop_turn, percolateIter, siftDown]
    by_cases hc : hole * 2 + 1 < h.curSize
    · have hchoose := chooseChild_eq temp hsize hc hl
      obtain ⟨hlt, hcn, -⟩ :=
        child_cases (expireOf h.mem) (Function.update h.array hole temp) hc
      generalize hcd : child (expireOf h.mem) (Function.update h.array hole temp) h.curSize hole = c
        at hchoose hlt hcn
      have hne : c ≠ hole := by omega
      obtain ⟨t, et, htx⟩ := (ht (by omega)).load
      have hcl := hl c hcn hne
      have he := expireAt_eq (h := h) (i := c) (by omega) hcl
      simp only [hc, if_true, dite_true, hchoose, he, et, htx, Option.bind_eq_bind,
        Option.bind_some, Function.update_self, Function.update_of_ne hne]
      by_cases hlt' : expireOf h.mem (h.array c) < expireOf h.mem temp
      · have hstep := ih (h.curSize - c) (by omega)
          (h := { h with array := Function.update h.array hole (h.array c) })
          (by show c < h.capacity; omega) hsize (fun _ => ht (by omega))
          (by
            intro i hi hic
            by_cases hih : i = hole
            · simpa [hih] using hcl
            · simpa [hih] using hl i hi hih) rfl
        simp only [update_move h.array temp hne] at hstep
        simp [hlt', get, set, hcap, show c < h.capacity by omega, hstep]
      · simp [hlt', set, hcap]
    · simp [hc, set, hcap]

/-! ## The operations -/

/-- `array[0..cur_size)`. -/
def held (h : TimeHeap κ υ) : List Ptr := contents h.array h.curSize

theorem HeapState.live_held {h : TimeHeap κ υ} (hs : HeapState h) {p : Ptr} (hp : p ∈ held h) :
    Live h.mem p := by
  obtain ⟨i, hi, rfl⟩ := mem_contents.mp hp
  exact hs.live i hi

/-- `add_timer` makes room first; the timers stay where they are. -/
theorem HeapState.room {h : TimeHeap κ υ} (hs : HeapState h) :
    ∃ h₁, (if h.curSize ≥ h.capacity then resize h else h) = h₁ ∧ 1 ≤ h₁.capacity ∧
      h.curSize < h₁.capacity ∧ h₁.mem = h.mem ∧ h₁.curSize = h.curSize ∧
      ∀ i < h.curSize, h₁.array i = h.array i := by
  have hc := hs.capacity
  have hz := hs.size
  by_cases hfull : h.curSize ≥ h.capacity
  · refine ⟨resize h, by simp [hfull], ?_, ?_, rfl, rfl, fun i hi => by simp [resize, hi]⟩
    · show 1 ≤ 2 * h.capacity
      omega
    · show h.curSize < 2 * h.capacity
      omega
  · exact ⟨h, by simp [hfull], hc, by omega, rfl, rfl, fun i _ => rfl⟩

theorem addTimer_spec {h : TimeHeap κ υ} (hs : HeapState h) {timer : Ptr}
    (ht : Live h.mem timer) :
    ∃ h', addTimer h timer = some h' ∧ HeapState h' ∧ h'.mem = h.mem ∧
      (held h').Perm (timer :: held h) := by
  obtain ⟨h₁, e₁, hcap, hlt, hmem, hsize, harr⟩ := hs.room
  let n := h.curSize
  let v := Function.update h₁.array n timer
  have hv : ∀ i < n, v i = h.array i := by
    intro i hi
    have hne : i ≠ n := by omega
    simp [v, hne, harr i hi]
  have hready : UpReady (expireOf h.mem) v (n + 1) n := by
    constructor
    · intro k hk0 hkn hne
      have hp := parent_lt (Nat.ne_of_gt hk0)
      rw [hv k (by omega), hv (parent k) (by omega)]
      exact hs.order k hk0 (by omega)
    · intro k _ hkn hk0 hpk
      have hp := parent_lt (Nat.ne_of_gt hk0)
      omega
  have hcont : contents v (n + 1) = held h ++ [timer] := by
    rw [contents_succ, contents_congr hv]
    simp [v, held, n]
  have hperm : (contents (siftUp (expireOf h.mem) v n) (n + 1)).Perm (timer :: held h) := by
    have hup := siftUp_perm (f := expireOf h.mem) v (Nat.lt_succ_self n)
    rw [hcont] at hup
    exact hup.trans (List.perm_append_singleton _ _)
  have hne : timer ≠ none := by
    obtain ⟨a, t, rfl, -⟩ := ht
    simp
  have hloop := @addLoop_eq κ υ { h₁ with curSize := n + 1 } timer n hlt
    (by simpa [hmem] using ht)
    (by
      intro i hi
      rw [show ({ h₁ with curSize := n + 1 } : TimeHeap κ υ).array i = h.array i from harr i hi]
      simpa [hmem] using hs.live i hi)
  refine ⟨⟨siftUp (expireOf h.mem) v n, h₁.capacity, n + 1, h.mem⟩, ?_,
    ⟨hcap, hlt, ?_, siftUp_ordered hready (Nat.lt_succ_self n)⟩, rfl, hperm⟩
  · simp only [addTimer, hne, if_false, e₁, hsize]
    refine hloop.trans ?_
    show some (⟨siftUp (expireOf h₁.mem) v n, _, _, h₁.mem⟩ : TimeHeap κ υ) = _
    rw [hmem]
  · intro i hi
    have hmem' := hperm.mem_iff.mp (mem_contents.mpr ⟨i, hi, rfl⟩)
    rcases List.mem_cons.mp hmem' with e | hh
    · show Live h.mem (siftUp (expireOf h.mem) v n i)
      rwa [e]
    · exact hs.live_held hh

/-- `del_timer` changes nothing but the callback of the timer. -/
theorem delTimer_spec {h : TimeHeap κ υ} (hs : HeapState h) {a : Nat} {t : HeapTimer κ υ}
    (ha : h.mem a = some t) :
    ∃ h', delTimer h (some a) = some h' ∧ HeapState h' ∧
      h' = { h with mem := Function.update h.mem a (some { t with cbFunc := none }) } := by
  have hexp : expireOf (Function.update h.mem a (some { t with cbFunc := none })) =
      expireOf h.mem := by
    funext p
    cases p with
    | none => rfl
    | some b =>
      by_cases hb : b = a
      · subst hb
        simp [expireOf, ha]
      · simp [expireOf, hb]
  refine ⟨{ h with mem := Function.update h.mem a (some { t with cbFunc := none }) },
    by simp [delTimer, ha], ⟨hs.capacity, hs.size, ?_, ?_⟩, rfl⟩
  · intro i hi
    obtain ⟨b, u, hp, hu⟩ := hs.live i hi
    by_cases hb : b = a
    · exact ⟨b, { t with cbFunc := none }, hp, by simp [hb]⟩
    · exact ⟨b, u, hp, by simp [hb, hu]⟩
  · rw [hexp]
    exact hs.order

theorem expireOf_free {mem : Nat → Option (HeapTimer κ υ)} {a : Nat} {p : Ptr}
    (hp : p ≠ some a) : expireOf (Function.update mem a none) p = expireOf mem p := by
  cases p with
  | none => rfl
  | some b =>
    have hb : b ≠ a := fun e => hp (by rw [e])
    simp [expireOf, hb]

theorem Live.free {mem : Nat → Option (HeapTimer κ υ)} {a : Nat} {p : Ptr} (h : Live mem p)
    (hp : p ≠ some a) : Live (Function.update mem a none) p := by
  obtain ⟨b, t, rfl, hb⟩ := h
  have hne : b ≠ a := fun e => hp (by rw [e])
  exact ⟨b, t, rfl, by simp [hne, hb]⟩

section
variable {h : TimeHeap κ υ} {n a : Nat}

/-- With the last timer put over the root, the root's timer is the one that goes. -/
theorem held_replaceRoot (hn : h.curSize = n + 1) (h0 : h.array 0 = some a) :
    (held h).Perm (some a :: contents (Function.update h.array 0 (h.array n)) n) := by
  have hperm := contents_replace h.array (Nat.zero_le n)
  rw [h0] at hperm
  simpa [held, hn] using hperm

/-- The timers that stay are live, and none of them is the root's. -/
theorem HeapState.replaceRoot (hs : HeapState h) (hn : h.curSize = n + 1)
    (h0 : h.array 0 = some a) (honce : (held h).count (h.array 0) ≤ 1) {i : Nat} (hi : i < n) :
    Live h.mem (Function.update h.array 0 (h.array n) i) ∧
      Function.update h.array 0 (h.array n) i ≠ some a := by
  have hheld := held_replaceRoot hn h0
  have hmem : Function.update h.array 0 (h.array n) i ∈
      contents (Function.update h.array 0 (h.array n)) n := mem_contents.mpr ⟨i, hi, rfl⟩
  refine ⟨hs.live_held (hheld.mem_iff.mpr (List.mem_cons_of_mem _ hmem)), ?_⟩
  intro he
  rw [h0, hheld.count_eq, List.count_cons_self] at honce
  have hpos := List.count_pos_iff.mpr (he ▸ hmem)
  omega

end

/-- `pop_timer` takes out and deletes a timer with the smallest `expire`. -/
theorem popTimer_spec {h : TimeHeap κ υ} (hs : HeapState h) (hne : h.curSize ≠ 0)
    (honce : (held h).count (h.array 0) ≤ 1) :
    ∃ a h', h.array 0 = some a ∧ popTimer h = some h' ∧ HeapState h' ∧
      h'.mem = Function.update h.mem a none ∧ (held h).Perm (some a :: held h') ∧
      ∀ p ∈ held h, expireOf h.mem (some a) ≤ expireOf h.mem p := by
  obtain ⟨n, hn⟩ := Nat.exists_eq_succ_of_ne_zero hne
  obtain ⟨a, t, h0, ha⟩ := hs.live 0 (by omega)
  let v := Function.update h.array 0 (h.array n)
  have hcap := hs.capacity
  have hsize := hs.size
  have hheld : (held h).Perm (some a :: contents v n) := held_replaceRoot hn h0
  have hlive : ∀ i < n, Live h.mem (v i) := fun i hi => (hs.replaceRoot hn h0 honce hi).1
  have hnota : ∀ i < n, v i ≠ some a := fun i hi => (hs.replaceRoot hn h0 honce hi).2
  have hready : DownReady (expireOf (Function.update h.mem a none)) v n 0 := by
    constructor
    · intro k hk0 hkn hpk
      have hp := parent_lt (Nat.ne_of_gt hk0)
      rw [expireOf_free (hnota k hkn), expireOf_free (hnota (parent k) (by omega))]
      have hk : k ≠ 0 := by omega
      simpa [v, hk, hpk] using hs.order k hk0 (by omega)
    · intro k h0
      omega
  have hperm := siftDown_perm (f := expireOf (Function.update h.mem a none)) v n (i := 0)
  have hloop := @percolateLoop_eq κ υ
    { h with mem := Function.update h.mem a none, curSize := n, array := v } (h.array n) 0
    (by show 0 < h.capacity; omega)
    (by show n ≤ h.capacity; omega)
    (by
      intro hlt
      have hv0 : v 0 = h.array n := by simp [v]
      have hlt : 0 < n := hlt
      have := (hlive 0 hlt).free (hnota 0 hlt)
      rwa [hv0] at this)
    (by
      intro i hi _
      exact (hlive i hi).free (hnota i hi))
  refine ⟨a, ⟨siftDown (expireOf (Function.update h.mem a none)) v n 0, h.capacity, n,
    Function.update h.mem a none⟩, h0, ?_, ⟨hcap, ?_, ?_, siftDown_ordered hready⟩, rfl,
    hheld.trans (hperm.symm.cons _), ?_⟩
  · have hv0 : Function.update v 0 (h.array n) = v := by simp [v]
    simp only [hv0] at hloop
    simp [popTimer, hn, get, show 0 < h.capacity by omega, h0, ha, set,
      show n < h.capacity by omega, percolateDown]
    exact hloop
  · show n ≤ h.capacity
    omega
  · intro i hi
    have hmem' := hperm.mem_iff.mp (mem_contents.mpr ⟨i, hi, rfl⟩)
    obtain ⟨j, hj, e⟩ := mem_contents.mp hmem'
    show Live _ (siftDown (expireOf (Function.update h.mem a none)) v n 0 i)
    rw [← e]
    exact (hlive j hj).free (hnota j hj)
  · intro p hp
    obtain ⟨i, hi, rfl⟩ := mem_contents.mp hp
    rw [← h0]
    exact hs.order.root_le hi

end

end TimerHeap
end Unpvol1
