import Mathlib.Algebra.Group.Int.Defs
import Mathlib.Algebra.Group.Nat.Defs
import Unpvol1.Timer.TimeHeap

/-!
# Timer.HeapAccess

`time_heap` once more, with its two constructors, its sizes as the `int`s they are, and what goes
wrong told apart: an index outside `array`, a pointer that leads to no timer, an `int` out of range.

* `IntHeap`, `Outcome` — the members, where `cur_size` may be negative; a heap, a fault, or no end.
* `ofNat`              — a heap of `TimeHeap` as one with `int`s.
* `forget_addTimer`, `forget_popTimer`, `forget_tick` — there, with the fault forgotten, the
  operations are those of `TimeHeap` as long as the `int`s are large enough.
-/

namespace Unpvol1
namespace TimerHeap

open BinHeap Slots Loop

inductive Fault where
  /-- An index outside `array`. -/
  | range (i : Int)
  /-- NULL or a deleted timer. -/
  | pointer
  /-- An `int` expression whose value is no `int`. -/
  | overflow
deriving DecidableEq

abbrev Outcome (α : Type) := ExceptT Fault Option α

/-- Without the reason of a fault. -/
def forget {α : Type} (m : Outcome α) : Option α :=
  match m.run with
  | some (.ok a) => some a
  | _ => none

theorem forget_eq_some {α : Type} {m : Outcome α} {a : α} (h : forget m = some a) :
    m = pure a := by
  rcases m with _ | _ | b
  · cases h
  · cases h
  · cases h
    rfl

theorem pure_inj {α : Type} {a b : α} (e : (pure a : Outcome α) = pure b) : a = b := by
  cases e
  rfl

/-- Without the reason of a fault, `m` is `m'` with its value read through `g`. -/
def Mirrors {α α' : Type} (g : α' → α) (m : Outcome α) (m' : Option α') : Prop :=
  forget m = m'.map g

section
variable {α α' β β' : Type} {g : α' → α} {k : β' → β}

theorem mirrors_pure (a : α') : Mirrors g (pure (g a)) (some a) := rfl

theorem mirrors_throw (e : Fault) : Mirrors g (throw e) none := rfl

theorem Mirrors.bind {m : Outcome α} {m' : Option α'} {f : α → Outcome β} {f' : α' → Option β'}
    (h : Mirrors g m m') (hf : ∀ a, m' = some a → Mirrors k (f (g a)) (f' a)) :
    Mirrors k (m >>= f) (m' >>= f') := by
  unfold Mirrors at h
  cases m' with
  | none =>
    rcases m with _ | _ | a
    · rfl
    · rfl
    · cases h
  | some a =>
    rw [forget_eq_some h]
    exact hf a rfl

/-- Both take the same branch. -/
theorem Mirrors.ite {c c' : Prop} [Decidable c] [Decidable c'] (hc : c ↔ c') {m n : Outcome α}
    {m' n' : Option α'} (h : c' → Mirrors g m m') (hn : ¬ c' → Mirrors g n n') :
    Mirrors g (if c then m else n) (if c' then m' else n') := by
  by_cases h' : c'
  · rw [if_pos h', if_pos (hc.mpr h')]
    exact h h'
  · rw [if_neg h', if_neg fun h => h' (hc.mp h)]
    exact hn h'

theorem Mirrors.eq_pure {m : Outcome α} {m' : Option α'} {a : α'} (h : Mirrors g m m')
    (e : m' = some a) : m = pure (g a) := by
  subst e
  exact forget_eq_some h

end

namespace Checked

def intMin : Int := -2 ^ 31

def intMax : Int := 2 ^ 31 - 1

/-- The value of an `int` expression. -/
def int (i : Int) : Outcome Int :=
  if intMin ≤ i ∧ i ≤ intMax then pure i else throw .overflow

/-- `array` has `capacity` entries; `mem` holds the timers. -/
structure IntHeap (κ υ : Type) where
  array : Nat → Ptr
  capacity : Int
  curSize : Int
  mem : Nat → Option (HeapTimer κ υ)

section
variable {κ υ : Type}

def load (h : IntHeap κ υ) (p : Ptr) : Outcome (HeapTimer κ υ) :=
  match p.bind h.mem with
  | some t => pure t
  | none => throw .pointer

/-- `array[i]`. -/
def get (h : IntHeap κ υ) (i : Int) : Outcome Ptr :=
  if 0 ≤ i ∧ i < h.capacity then pure (h.array i.toNat) else throw (.range i)

/-- `array[i] = p`. -/
def set (h : IntHeap κ υ) (i : Int) (p : Ptr) : Outcome (IntHeap κ υ) :=
  if 0 ≤ i ∧ i < h.capacity then
    pure { h with array := Function.update h.array i.toNat p }
  else
    throw (.range i)

/-- `array[i]->expire`. -/
def expireAt (h : IntHeap κ υ) (i : Int) : Outcome Int := do
  let p ← get h i
  let t ← load h p
  pure t.expire

/-- `array[i] = …` for the `k` indices from `i` on. -/
def copyLoop (read : Nat → Outcome Ptr) : Nat → Nat → IntHeap κ υ → Outcome (IntHeap κ υ)
  | 0, _, h => pure h
  | k + 1, i, h => do
    let p ← read i
    let h ← set h i p
    copyLoop read k (i + 1) h

/-- The timers are copied to an array of twice the capacity. -/
def resize (h : IntHeap κ υ) : Outcome (IntHeap κ υ) := do
  let capacity ← int (2 * h.capacity)
  copyLoop (fun i => get h i) h.curSize.toNat 0
    { h with array := fun _ => none, capacity := capacity }

/-- The loop of `add_timer` and the write after it. -/
def addLoop (h : IntHeap κ υ) (timer : Ptr) (hole : Int) : Outcome (IntHeap κ υ) := do
  if _h : hole > 0 then
    let parent := (hole - 1) / 2
    let e ← expireAt h parent
    let t ← load h timer
    if e ≤ t.expire then
      set h hole timer
    else
      let p ← get h parent
      let h ← set h hole p
      addLoop h timer parent
  else
    set h hole timer
termination_by hole.toNat
decreasing_by omega

/-- `if( cur_size >= capacity ) resize();` -/
def makeRoom (h : IntHeap κ υ) : Outcome (IntHeap κ υ) :=
  if h.curSize ≥ h.capacity then resize h else pure h

/-- Where the array has to grow and `new` fails, its exception leaves the heap as it was. -/
def addTimer (h : IntHeap κ υ) (timer : Ptr) (grows : Bool) : Outcome (IntHeap κ υ) := do
  if timer = none then
    pure h
  else if h.curSize ≥ h.capacity ∧ grows = false then
    let _ ← int (2 * h.capacity)
    pure h
  else
    let h ← makeRoom h
    let size ← int (h.curSize + 1)
    addLoop { h with curSize := size } timer h.curSize

/-- `timer->cb_func = NULL`. -/
def delTimer (h : IntHeap κ υ) (timer : Ptr) : Outcome (IntHeap κ υ) :=
  match timer with
  | none => pure h
  | some a => do
    let t ← load h timer
    pure { h with mem := Function.update h.mem a (some { t with cbFunc := none }) }

def top (h : IntHeap κ υ) : Outcome Ptr :=
  if h.curSize = 0 then pure none else get h 0

/-- The child `percolate_down` goes to, of the left one and `cur_size-1`; the right one is looked at
only when there is one. -/
def chooseChild (h : IntHeap κ υ) (child last : Int) : Outcome Int := do
  if child < last then
    let r ← expireAt h (child + 1)
    let l ← expireAt h child
    pure (if r < l then child + 1 else child)
  else
    pure child

/-- One turn of the loop of `percolate_down`, and the write after it; `percolateLoop` is the loop
from the next turn on. -/
def percolateIter (temp : Ptr) (percolateLoop : IntHeap κ υ → Int → Outcome (IntHeap κ υ))
    (h : IntHeap κ υ) (hole : Int) : Outcome (IntHeap κ υ) := do
  let left ← int (hole * 2 + 1)
  let last ← int (h.curSize - 1)
  if left ≤ last then
    let child ← chooseChild h left last
    let c ← expireAt h child
    let t ← load h temp
    if c < t.expire then
      let p ← get h child
      let h ← set h hole p
      percolateLoop h child
    else
      set h hole temp
  else
    set h hole temp

def percolateBody (temp : Ptr) :
    Body (IntHeap κ υ) Int (Except Fault (IntHeap κ υ)) where
  iter := percolateIter temp
  mono f g hfg h hole := by
    unfold percolateIter
    refine .exceptT_bind _ fun left => .exceptT_bind _ fun last => .ite ?_ (.refl _)
    refine .exceptT_bind _ fun child => .exceptT_bind _ fun c => .exceptT_bind _ fun t => ?_
    refine .ite ?_ (.refl _)
    exact .exceptT_bind _ fun p => .exceptT_bind _ fun h => hfg _ _

/-- The loop of `percolate_down` and the write after it. -/
def percolateLoop (h : IntHeap κ υ) (temp : Ptr) (hole : Int) : Outcome (IntHeap κ υ) :=
  (percolateBody temp).run h hole

theorem percolateLoop_turn (h : IntHeap κ υ) (temp : Ptr) (hole : Int) :
    percolateLoop h temp hole = percolateIter temp (percolateLoop · temp) h hole :=
  (percolateBody temp).run_eq h hole

def percolateDown (h : IntHeap κ υ) (hole : Int) : Outcome (IntHeap κ υ) := do
  let temp ← get h hole
  percolateLoop h temp hole

def popTimer (h : IntHeap κ υ) : Outcome (IntHeap κ υ) := do
  if h.curSize = 0 then
    pure h
  else
    let p ← get h 0
    match p with
    | none => pure h
    | some a =>
      let _ ← load h (some a)
      let size ← int (h.curSize - 1)
      let h := { h with mem := Function.update h.mem a none, curSize := size }
      let last ← get h size
      let h ← set h 0 last
      percolateDown h 0

/-- One turn of the loop of `tick`; `tickLoop` is the loop from the next turn on. -/
def tickIter (cur : Int)
    (tickLoop : IntHeap κ υ → Ptr → Outcome (IntHeap κ υ × List (Nat × HeapTimer κ υ)))
    (h : IntHeap κ υ) (tmp : Ptr) : Outcome (IntHeap κ υ × List (Nat × HeapTimer κ υ)) := do
  if h.curSize = 0 then
    pure (h, [])
  else
    match tmp with
    | none => pure (h, [])
    | some _ =>
      let t ← load h tmp
      if t.expire > cur then
        pure (h, [])
      else
        let p ← get h 0
        match p with
        | none => throw .pointer
        | some a =>
          let t ← load h (some a)
          let h ← popTimer h
          let tmp ← get h 0
          let (h, called) ← tickLoop h tmp
          pure (h, if t.cbFunc.isSome = true then (a, t) :: called else called)

def tickBody (cur : Int) :
    Body (IntHeap κ υ) Ptr (Except Fault (IntHeap κ υ × List (Nat × HeapTimer κ υ))) where
  iter := tickIter cur
  mono f g hfg h tmp := by
    unfold tickIter
    refine .ite (.refl _) ?_
    cases tmp with
    | none => exact .refl _
    | some _ =>
      refine .exceptT_bind _ fun t => .ite (.refl _) (.exceptT_bind _ fun p => ?_)
      cases p with
      | none => exact .refl _
      | some a =>
        refine .exceptT_bind _ fun t => .exceptT_bind _ fun h => .exceptT_bind _ fun tmp => ?_
        exact .exceptT_bind_rest (hfg _ _) _

/-- The loop of `tick`, with the timers whose `cb_func( user_data )` it calls, in order. -/
def tickLoop (cur : Int) (h : IntHeap κ υ) (tmp : Ptr) :
    Outcome (IntHeap κ υ × List (Nat × HeapTimer κ υ)) :=
  (tickBody cur).run h tmp

theorem tickLoop_turn (cur : Int) (h : IntHeap κ υ) (tmp : Ptr) :
    tickLoop cur h tmp = tickIter cur (tickLoop cur) h tmp :=
  (tickBody cur).run_eq h tmp

def tick (cur : Int) (h : IntHeap κ υ) : Outcome (IntHeap κ υ × List (Nat × HeapTimer κ υ)) := do
  let tmp ← get h 0
  tickLoop cur h tmp

/-- `for ( int i = (cur_size-1)/2; i >=0; --i )`, from `i` - 1 on. -/
def percolateAll : Nat → IntHeap κ υ → Outcome (IntHeap κ υ)
  | 0, h => pure h
  | i + 1, h => do
    let h ← percolateDown h i
    percolateAll i h

/-- `time_heap( cap )`, where it does not throw. -/
def init (cap : Int) (mem : Nat → Option (HeapTimer κ υ)) : IntHeap κ υ where
  array := fun _ => none
  capacity := cap
  curSize := 0
  mem := mem

/-- `time_heap( init_array, size, capacity )`, where it does not throw. -/
def build (initArray : Nat → Ptr) (size capacity : Int) (mem : Nat → Option (HeapTimer κ υ)) :
    Outcome (IntHeap κ υ) := do
  let h : IntHeap κ υ := { init capacity mem with curSize := size }
  if size ≠ 0 then
    let h ← copyLoop (fun i => pure (initArray i)) size.toNat 0 h
    let last ← int (h.curSize - 1)
    percolateAll (last.tdiv 2 + 1).toNat h
  else
    pure h

/-! ## The operations of `TimeHeap` -/

def ofNat (h : TimeHeap κ υ) : IntHeap κ υ where
  array := h.array
  capacity := h.capacity
  curSize := h.curSize
  mem := h.mem

@[simp] theorem ofNat_capacity (h : TimeHeap κ υ) : (ofNat h).capacity = h.capacity := rfl
@[simp] theorem ofNat_curSize (h : TimeHeap κ υ) : (ofNat h).curSize = h.curSize := rfl

theorem ofNat_inj {h h' : TimeHeap κ υ} (e : ofNat h = ofNat h') : h = h' := by
  obtain ⟨array, capacity, curSize, mem⟩ := h
  obtain ⟨array', capacity', curSize', mem'⟩ := h'
  simpa only [ofNat, IntHeap.mk.injEq, TimeHeap.mk.injEq, Int.ofNat_inj] using e

theorem int_eq {i : Int} (hmin : intMin ≤ i) (hmax : i ≤ intMax) : int i = pure i :=
  if_pos ⟨hmin, hmax⟩

theorem int_overflow {i : Int} (h : intMax < i) : int i = throw .overflow :=
  if_neg fun hi => absurd hi.2 (Int.not_le.mpr h)

theorem load_mirrors (h : TimeHeap κ υ) (p : Ptr) :
    Mirrors id (load (ofNat h) p) (TimerHeap.load h p) := by
  have hload : load (ofNat h) p = match p.bind h.mem with
    | some t => pure t
    | none => throw .pointer := rfl
  rw [hload, TimerHeap.load]
  cases p.bind h.mem with
  | none => exact mirrors_throw _
  | some t => exact mirrors_pure t

theorem index_iff (h : TimeHeap κ υ) (i : Nat) :
    (0 ≤ (i : Int) ∧ (i : Int) < (ofNat h).capacity) ↔ i < h.capacity := by
  simp only [ofNat_capacity]
  omega

theorem get_mirrors (h : TimeHeap κ υ) (i : Nat) :
    Mirrors id (get (ofNat h) i) (TimerHeap.get h i) :=
  Mirrors.ite (index_iff h i) (fun _ => mirrors_pure (h.array i)) fun _ => mirrors_throw _

theorem set_mirrors (h : TimeHeap κ υ) (i : Nat) (p : Ptr) :
    Mirrors ofNat (set (ofNat h) i p) (TimerHeap.set h i p) :=
  Mirrors.ite (index_iff h i)
    (fun _ => mirrors_pure { h with array := Function.update h.array i p }) fun _ =>
    mirrors_throw _

theorem expireAt_mirrors (h : TimeHeap κ υ) (i : Nat) :
    Mirrors id (expireAt (ofNat h) i) (TimerHeap.expireAt h i) :=
  (get_mirrors h i).bind fun p _ => (load_mirrors h p).bind fun t _ => mirrors_pure t.expire

theorem addLoop_mirrors (h : TimeHeap κ υ) (timer : Ptr) (hole : Nat) :
    Mirrors ofNat (addLoop (ofNat h) timer hole) (TimerHeap.addLoop h timer hole) := by
  induction hole using Nat.strongRecOn generalizing h with
  | ind hole ih =>
    rw [addLoop, TimerHeap.addLoop]
    by_cases hpos : hole > 0
    · have hpos' : (hole : Int) > 0 := by omega
      have hparent : ((hole : Int) - 1) / 2 = ((hole - 1) / 2 : Nat) := by omega
      simp only [hpos, hpos', hparent, dite_true]
      refine (expireAt_mirrors h _).bind fun e _ => (load_mirrors h timer).bind fun t _ => ?_
      refine Mirrors.ite Iff.rfl (fun _ => set_mirrors h hole timer) fun _ => ?_
      refine (get_mirrors h _).bind fun p _ => (set_mirrors h hole p).bind fun h₁ _ => ?_
      exact ih _ (by omega) h₁
    · have hpos' : ¬ (hole : Int) > 0 := by omega
      simp only [hpos, hpos', dite_false]
      exact set_mirrors h hole timer

theorem chooseChild_mirrors (h : TimeHeap κ υ) (hole : Nat) :
    Mirrors (fun c : Nat => (c : Int))
      (chooseChild (ofNat h) (hole * 2 + 1 : Nat) ((h.curSize : Int) - 1))
      (TimerHeap.chooseChild h hole) := by
  have hright : ((hole * 2 + 1 : Nat) : Int) < (h.curSize : Int) - 1 ↔
      hole * 2 + 1 + 1 < h.curSize := by omega
  refine Mirrors.ite hright (fun _ => ?_) fun _ => mirrors_pure (hole * 2 + 1)
  refine (expireAt_mirrors h (hole * 2 + 1 + 1)).bind fun r _ => ?_
  refine (expireAt_mirrors h (hole * 2 + 1)).bind fun l _ => ?_
  dsimp only [id_eq]
  by_cases hless : r < l
  · rw [if_pos hless, if_pos hless]
    exact mirrors_pure (hole * 2 + 1 + 1)
  · rw [if_neg hless, if_neg hless]
    exact mirrors_pure (hole * 2 + 1)

theorem chooseChild_bounds {h : TimeHeap κ υ} {hole c : Nat} (hc : hole * 2 + 1 < h.curSize)
    (e : TimerHeap.chooseChild h hole = some c) : hole < c ∧ c < h.curSize := by
  unfold TimerHeap.chooseChild at e
  dsimp only at e
  split at e
  · obtain ⟨r, -, e⟩ := Option.bind_eq_some_iff.mp e
    obtain ⟨l, -, e⟩ := Option.bind_eq_some_iff.mp e
    have := Option.some.inj e
    split at this <;> omega
  · have := Option.some.inj e
    omega

theorem set_curSize {h h' : TimeHeap κ υ} {i : Nat} {p : Ptr}
    (e : TimerHeap.set h i p = some h') : h'.curSize = h.curSize := by
  unfold TimerHeap.set at e
  split at e
  · cases e
    rfl
  · cases e

/-- What the loop of `percolate_down` computes with are `int`s when its places are below 2^30. -/
theorem percolate_ints {h : TimeHeap κ υ} {hole : Nat} (hsize : h.curSize ≤ 2 ^ 30)
    (hhole : hole < 2 ^ 30) :
    int ((hole : Int) * 2 + 1) = pure ((hole * 2 + 1 : Nat) : Int) ∧
      int ((ofNat h).curSize - 1) = pure ((h.curSize : Int) - 1) := by
  constructor
  · rw [int_eq (by simp only [intMin]; omega) (by simp only [intMax]; omega)]
    rfl
  · exact int_eq (by simp only [intMin, ofNat_curSize]; omega)
      (by simp only [intMax, ofNat_curSize]; omega)

/-- By induction on how far the hole is from the end. -/
theorem percolateLoop_mirrors (h : TimeHeap κ υ) (temp : Ptr) (hole : Nat)
    (hsize : h.curSize ≤ 2 ^ 30) (hhole : hole < 2 ^ 30) :
    Mirrors ofNat (percolateLoop (ofNat h) temp hole) (TimerHeap.percolateLoop h temp hole) := by
  induction hn : h.curSize - hole using Nat.strongRecOn generalizing h hole with
  | ind n ih =>
    obtain ⟨hleft, hlast⟩ := percolate_ints hsize hhole
    rw [percolateLoop_turn, percolateIter, TimerHeap.percolateLoop_turn, TimerHeap.percolateIter]
    simp only [hleft, hlast, pure_bind]
    refine Mirrors.ite (by omega) (fun hc => ?_) fun _ => set_mirrors h hole temp
    refine (chooseChild_mirrors h hole).bind fun c hchoose => ?_
    refine (expireAt_mirrors h c).bind fun e _ => (load_mirrors h temp).bind fun t _ => ?_
    refine Mirrors.ite Iff.rfl (fun _ => ?_) fun _ => set_mirrors h hole temp
    refine (get_mirrors h c).bind fun p _ => (set_mirrors h hole p).bind fun h₁ hset => ?_
    obtain ⟨hgt, hlt⟩ := chooseChild_bounds hc hchoose
    have hsize₁ := set_curSize hset
    exact ih _ (by omega) h₁ c (by omega) (by omega) rfl

theorem percolateLoop_curSize (h : TimeHeap κ υ) (temp : Ptr) (hole : Nat) {h' : TimeHeap κ υ}
    (e : TimerHeap.percolateLoop h temp hole = some h') : h'.curSize = h.curSize := by
  induction hn : h.curSize - hole using Nat.strongRecOn generalizing h hole with
  | ind n ih =>
    rw [TimerHeap.percolateLoop_turn, TimerHeap.percolateIter] at e
    split at e
    · rename_i hc
      obtain ⟨c, hchoose, e⟩ := Option.bind_eq_some_iff.mp e
      obtain ⟨_, -, e⟩ := Option.bind_eq_some_iff.mp e
      obtain ⟨_, -, e⟩ := Option.bind_eq_some_iff.mp e
      split at e
      · obtain ⟨_, -, e⟩ := Option.bind_eq_some_iff.mp e
        obtain ⟨h₁, hset, e⟩ := Option.bind_eq_some_iff.mp e
        have hgt := (chooseChild_bounds hc hchoose).1
        have hsize := set_curSize hset
        exact (ih _ (by omega) h₁ c e rfl).trans hsize
      · exact set_curSize e
    · exact set_curSize e

theorem percolateDown_mirrors (h : TimeHeap κ υ) (hole : Nat) (hsize : h.curSize ≤ 2 ^ 30)
    (hhole : hole < 2 ^ 30) :
    Mirrors ofNat (percolateDown (ofNat h) hole) (TimerHeap.percolateDown h hole) :=
  (get_mirrors h hole).bind fun p _ => percolateLoop_mirrors h p hole hsize hhole

/-- The timer that goes is not counted any more when `percolate_down` starts. -/
theorem popTimer_mirrors (h : TimeHeap κ υ) (hsize : h.curSize ≤ 2 ^ 30 + 1) :
    Mirrors ofNat (popTimer (ofNat h)) (TimerHeap.popTimer h) := by
  unfold popTimer TimerHeap.popTimer
  refine Mirrors.ite (by simp only [ofNat_curSize]; omega) (fun _ => mirrors_pure h) fun hne => ?_
  refine (get_mirrors h 0).bind fun p _ => ?_
  cases p with
  | none => exact mirrors_pure h
  | some a =>
    have hint : int ((ofNat h).curSize - 1) = pure ((h.curSize - 1 : Nat) : Int) := by
      rw [int_eq (by simp only [intMin, ofNat_curSize]; omega)
        (by simp only [intMax, ofNat_curSize]; omega), ofNat_curSize]
      congr 1
      omega
    let g : TimeHeap κ υ :=
      { h with mem := Function.update h.mem a none, curSize := h.curSize - 1 }
    refine (load_mirrors h (some a)).bind fun t _ => ?_
    rw [hint, pure_bind]
    refine (get_mirrors g (h.curSize - 1)).bind fun last _ => ?_
    refine (set_mirrors g 0 last).bind fun h₁ hset => ?_
    have hsize₁ : h₁.curSize = h.curSize - 1 := set_curSize hset
    exact percolateDown_mirrors h₁ 0 (by omega) (by omega)

/-- A pop that finds a timer at the root takes one out. -/
theorem popTimer_curSize {h h' : TimeHeap κ υ} {a : Nat} (hempty : h.curSize ≠ 0)
    (hroot : TimerHeap.get h 0 = some (some a)) (e : TimerHeap.popTimer h = some h') :
    h'.curSize < h.curSize := by
  unfold TimerHeap.popTimer at e
  simp only [hempty, if_false, hroot, Option.bind_eq_bind, Option.bind_some] at e
  obtain ⟨_, -, e⟩ := Option.bind_eq_some_iff.mp e
  obtain ⟨last, -, e⟩ := Option.bind_eq_some_iff.mp e
  obtain ⟨h₁, hset, e⟩ := Option.bind_eq_some_iff.mp e
  obtain ⟨_, -, e⟩ := Option.bind_eq_some_iff.mp e
  rw [percolateLoop_curSize _ _ _ e, set_curSize hset]
  show h.curSize - 1 < h.curSize
  omega

/-- By induction on the number of timers. -/
theorem tickLoop_mirrors (cur : Int) (h : TimeHeap κ υ) (tmp : Ptr)
    (hsize : h.curSize ≤ 2 ^ 30 + 1) :
    Mirrors (fun r => (ofNat r.1, r.2)) (tickLoop cur (ofNat h) tmp)
      (TimerHeap.tickLoop cur h tmp) := by
  induction hn : h.curSize using Nat.strongRecOn generalizing h tmp with
  | ind n ih =>
    rw [tickLoop_turn, tickIter.eq_def, TimerHeap.tickLoop_turn, TimerHeap.tickIter.eq_def]
    refine Mirrors.ite (by simp only [ofNat_curSize]; omega)
      (fun _ => mirrors_pure (h, [])) fun hne => ?_
    cases tmp with
    | none => exact mirrors_pure (h, [])
    | some b =>
      refine (load_mirrors h (some b)).bind fun t _ => ?_
      refine Mirrors.ite Iff.rfl (fun _ => mirrors_pure (h, [])) fun _ => ?_
      refine (get_mirrors h 0).bind fun p hroot => ?_
      cases p with
      | none => exact mirrors_throw _
      | some a =>
        refine (load_mirrors h (some a)).bind fun u _ => ?_
        refine (popTimer_mirrors h hsize).bind fun h₁ hpop => ?_
        refine (get_mirrors h₁ 0).bind fun tmp _ => ?_
        have hless := popTimer_curSize hne hroot hpop
        refine (ih _ (by omega) h₁ tmp (by omega) rfl).bind fun r _ => ?_
        exact mirrors_pure (r.1, if u.cbFunc.isSome = true then (a, u) :: r.2 else r.2)

theorem forget_popTimer (h : TimeHeap κ υ) (hsize : h.curSize ≤ 2 ^ 30 + 1) :
    forget (popTimer (ofNat h)) = (TimerHeap.popTimer h).map ofNat :=
  popTimer_mirrors h hsize

theorem forget_tick (cur : Int) (h : TimeHeap κ υ) (hsize : h.curSize ≤ 2 ^ 30 + 1) :
    forget (tick cur (ofNat h)) =
      (TimerHeap.tick cur h).map fun r => (ofNat r.1, r.2) :=
  (get_mirrors h 0).bind fun tmp _ => tickLoop_mirrors cur h tmp hsize

theorem forget_delTimer (h : TimeHeap κ υ) (timer : Ptr) :
    forget (delTimer (ofNat h) timer) = (TimerHeap.delTimer h timer).map ofNat := by
  cases timer with
  | none => rfl
  | some a =>
    refine (load_mirrors h (some a)).bind fun t _ => ?_
    exact mirrors_pure { h with mem := Function.update h.mem a (some { t with cbFunc := none }) }

/-- The copying loops write what they read, and nothing else. -/
theorem copyLoop_eq (read : Nat → Outcome Ptr) (src : Nat → Ptr) (k i : Nat) (h : IntHeap κ υ)
    (hread : ∀ j, i ≤ j → j < i + k → read j = pure (src j)) (hcap : (i + k : Nat) ≤ h.capacity) :
    copyLoop read k i h =
      pure { h with array := fun j => if i ≤ j ∧ j < i + k then src j else h.array j } := by
  induction k generalizing i h with
  | zero =>
    have hnone : ∀ j, ¬ (i ≤ j ∧ j < i + 0) := fun j => by omega
    simp only [copyLoop, hnone, if_false]
  | succ k ih =>
    have hi := hread i (Nat.le_refl i) (by omega)
    have hset : set h i (src i) = pure { h with array := Function.update h.array i (src i) } :=
      if_pos (by omega)
    simp only [copyLoop, hi, pure_bind, hset]
    rw [ih (i + 1) _ (fun j hj hjk => hread j (by omega) (by omega))
      (by show ((i + 1 + k : Nat) : Int) ≤ h.capacity; omega)]
    congr 2
    funext j
    by_cases hj : j = i
    · subst hj
      simp
    · have : (i + 1 ≤ j ∧ j < i + 1 + k) ↔ (i ≤ j ∧ j < i + (k + 1)) := by omega
      simp only [this, Function.update_of_ne hj]

theorem resize_eq {h : IntHeap κ υ} (hsize : h.curSize ≤ h.capacity) (hpos : 0 ≤ h.capacity)
    (hfit : 2 * h.capacity ≤ intMax) :
    resize h = pure
      { h with
        array := fun i => if (i : Int) < h.curSize then h.array i else none
        capacity := 2 * h.capacity } := by
  have hread : ∀ j : Nat, 0 ≤ j → j < 0 + h.curSize.toNat → get h j = pure (h.array j) :=
    fun j _ hj => if_pos (by omega)
  have hcopied : ∀ j : Nat, (0 ≤ j ∧ j < 0 + h.curSize.toNat) ↔ (j : Int) < h.curSize :=
    fun j => by omega
  unfold resize
  rw [int_eq (by simp only [intMin]; omega) hfit, pure_bind,
    copyLoop_eq _ h.array h.curSize.toNat 0 _ hread
      (by show ((0 + h.curSize.toNat : Nat) : Int) ≤ 2 * h.capacity; omega)]
  simp only [hcopied]

theorem resize_ofNat {h : TimeHeap κ υ} (hsize : h.curSize ≤ h.capacity)
    (hfit : 2 * (h.capacity : Int) ≤ intMax) :
    resize (ofNat h) = pure (ofNat (TimerHeap.resize h)) := by
  rw [resize_eq (by simp only [ofNat_curSize, ofNat_capacity]; omega)
    (by simp only [ofNat_capacity]; omega) hfit]
  simp only [ofNat, TimerHeap.resize, Int.ofNat_lt, Int.natCast_mul, Int.cast_ofNat_Int]

/-- Where `new` does not fail, and the greater capacity is an `int`. -/
theorem forget_addTimer {h : TimeHeap κ υ} (hsize : h.curSize ≤ h.capacity)
    (hfit : (h.capacity : Int) ≤ intMax)
    (hroom : h.curSize ≥ h.capacity → 2 * (h.capacity : Int) ≤ intMax) (timer : Ptr) :
    forget (addTimer (ofNat h) timer true) = (TimerHeap.addTimer h timer).map ofNat := by
  have hint : int ((h.curSize : Int) + 1) = pure ((h.curSize + 1 : Nat) : Int) := by
    simp only [intMax] at hfit hroom
    exact int_eq (by simp only [intMin]; omega) (by simp only [intMax]; omega)
  have hfull_iff : (ofNat h).curSize ≥ (ofNat h).capacity ↔ h.curSize ≥ h.capacity := by
    simp only [ofNat_curSize, ofNat_capacity]
    omega
  unfold addTimer TimerHeap.addTimer makeRoom
  refine Mirrors.ite Iff.rfl (fun _ => mirrors_pure h) fun _ => ?_
  rw [if_neg fun hc => Bool.noConfusion hc.2]
  by_cases hfull : h.curSize ≥ h.capacity
  · simp only [hfull_iff, hfull, if_true, resize_ofNat hsize (hroom hfull), pure_bind]
    have hsame : int ((ofNat (TimerHeap.resize h)).curSize + 1) =
        pure ((h.curSize + 1 : Nat) : Int) := hint
    rw [hsame, pure_bind]
    exact addLoop_mirrors { TimerHeap.resize h with curSize := h.curSize + 1 } timer h.curSize
  · simp only [hfull_iff, hfull, if_false, pure_bind]
    have hsame : int ((ofNat h).curSize + 1) = pure ((h.curSize + 1 : Nat) : Int) := hint
    rw [hsame, pure_bind]
    exact addLoop_mirrors { h with curSize := h.curSize + 1 } timer h.curSize

end

end Checked
end TimerHeap
end Unpvol1
