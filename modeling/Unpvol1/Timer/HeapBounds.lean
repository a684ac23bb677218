import Unpvol1.Timer.HeapAccess

/-!
# Timer.HeapBounds

Which indices of `array` the members of `time_heap` use, in sequences of operations on a heap from
either constructor. Pointers are not looked after here: the memory behind them may change between
the operations in any way, and an operation that follows a bad one ends the sequence.

* `Stays`          — an outcome without an index outside the array, or an `int` out of range; its
  rules follow the binds.
* `Bounded h`      — there is an array, and the timers fit into it; `Sound h` — or there is none, or
  the array constructor was given a negative size.
* `takes_of_inRange`, `call_sound` — what a heap can take, and that nothing goes wrong with it.
* `in_range_iff`   — the same of sequences of calls.
-/

namespace Unpvol1
namespace TimerHeap
namespace Checked

/-- A value with `P`, or a bad pointer; where `lax` holds also an `int` out of range. -/
def Stays {α : Type} (lax : Prop) (P : α → Prop) (m : Outcome α) : Prop :=
  m = throw .pointer ∨ (lax ∧ m = throw .overflow) ∨ ∃ a, m = pure a ∧ P a

section
variable {α β : Type} {lax : Prop} {P : α → Prop} {Q : β → Prop}

theorem stays_pure {a : α} (h : P a) : Stays lax P (pure a : Outcome α) := .inr (.inr ⟨a, rfl, h⟩)

theorem stays_pointer : Stays lax P (throw .pointer : Outcome α) := .inl rfl

theorem Stays.bind {m : Outcome α} {f : α → Outcome β} (h : Stays lax P m)
    (hf : ∀ a, P a → Stays lax Q (f a)) : Stays lax Q (m >>= f) := by
  rcases h with rfl | ⟨hlax, rfl⟩ | ⟨a, rfl, ha⟩
  · exact .inl rfl
  · exact .inr (.inl ⟨hlax, rfl⟩)
  · exact hf a ha

theorem Stays.imp {P' : α → Prop} {m : Outcome α} (h : Stays lax P m) (hP : ∀ a, P a → P' a) :
    Stays lax P' m := by
  rcases h with h | h | ⟨a, h, ha⟩
  · exact .inl h
  · exact .inr (.inl h)
  · exact .inr (.inr ⟨a, h, hP a ha⟩)

theorem Stays.of_pure {a : α} (h : Stays lax P (pure a : Outcome α)) : P a := by
  rcases h with e | ⟨-, e⟩ | ⟨b, e, hb⟩
  · cases e
  · cases e
  · cases e
    exact hb

end

section
variable {κ υ : Type} {lax : Prop} {h : IntHeap κ υ}

theorem load_stays (h : IntHeap κ υ) (p : Ptr) : Stays lax (fun _ => True) (load h p) := by
  unfold load
  cases p.bind h.mem with
  | none => exact stays_pointer
  | some t => exact stays_pure trivial

theorem int_stays {i : Int} (hfits : ¬ lax → intMin ≤ i ∧ i ≤ intMax) :
    Stays lax (· = i) (int i) := by
  by_cases hi : intMin ≤ i ∧ i ≤ intMax
  · exact .inr (.inr ⟨i, if_pos hi, rfl⟩)
  · exact .inr (.inl ⟨Classical.byContradiction fun hstrict => hi (hfits hstrict), if_neg hi⟩)

theorem get_stays {i : Int} (h0 : 0 ≤ i) (hi : i < h.capacity) :
    Stays lax (fun _ => True) (get h i) :=
  .inr (.inr ⟨h.array i.toNat, if_pos ⟨h0, hi⟩, trivial⟩)

/-- As large as before, and as full. -/
def SameSize (h h' : IntHeap κ υ) : Prop := h'.capacity = h.capacity ∧ h'.curSize = h.curSize

theorem SameSize.refl (h : IntHeap κ υ) : SameSize h h := ⟨rfl, rfl⟩

theorem SameSize.trans {h₁ h₂ h₃ : IntHeap κ υ} (h : SameSize h₁ h₂) (h' : SameSize h₂ h₃) :
    SameSize h₁ h₃ := ⟨h'.1.trans h.1, h'.2.trans h.2⟩

theorem set_stays {i : Int} (h0 : 0 ≤ i) (hi : i < h.capacity) (p : Ptr) :
    Stays lax (SameSize h) (set h i p) :=
  .inr (.inr ⟨_, if_pos ⟨h0, hi⟩, rfl, rfl⟩)

theorem expireAt_stays {i : Int} (h0 : 0 ≤ i) (hi : i < h.capacity) :
    Stays lax (fun _ => True) (expireAt h i) :=
  (get_stays h0 hi).bind fun p _ => (load_stays h p).bind fun _ _ => stays_pure trivial

theorem copyLoop_stays {read : Nat → Outcome Ptr} (k i : Nat) (h : IntHeap κ υ)
    (hread : ∀ j, j < i + k → Stays lax (fun _ => True) (read j))
    (hcap : (i + k : Nat) ≤ h.capacity) : Stays lax (SameSize h) (copyLoop read k i h) := by
  induction k generalizing i h with
  | zero => exact stays_pure (SameSize.refl h)
  | succ k ih =>
    refine (hread i (by omega)).bind fun p _ => ?_
    refine (set_stays (by omega) (by omega) p).bind fun h₁ h₁' => ?_
    have hrec := ih (i + 1) h₁ (fun j hj => hread j (by omega)) (by rw [h₁'.1]; omega)
    exact hrec.imp fun _ h₂ => h₁'.trans h₂

/-- The hole of `add_timer` goes to smaller and smaller places. -/
theorem addLoop_stays (timer : Ptr) (hole : Int) (h : IntHeap κ υ) (h0 : 0 ≤ hole)
    (hcap : hole < h.capacity) : Stays lax (SameSize h) (addLoop h timer hole) := by
  induction hn : hole.toNat using Nat.strongRecOn generalizing h hole with
  | ind n ih =>
    rw [addLoop]
    split
    · rename_i hpos
      have hparent0 : 0 ≤ (hole - 1) / 2 := by omega
      have hparent : (hole - 1) / 2 < h.capacity := by omega
      refine (expireAt_stays hparent0 hparent).bind fun e _ => ?_
      refine (load_stays h timer).bind fun t _ => ?_
      split
      · exact set_stays h0 hcap timer
      · refine (get_stays hparent0 hparent).bind fun p _ => ?_
        refine (set_stays h0 hcap p).bind fun h₁ h₁' => ?_
        have hrec := ih _ (by omega) _ h₁ hparent0 (by rw [h₁'.1]; exact hparent) rfl
        exact hrec.imp fun _ h₂ => h₁'.trans h₂
    · exact set_stays h0 hcap timer

theorem chooseChild_stays {child last : Int} (h0 : 0 ≤ child) (hchild : child ≤ last)
    (hlast : last < h.capacity) :
    Stays lax (fun c => child ≤ c ∧ c ≤ last) (chooseChild h child last) := by
  unfold chooseChild
  split
  · rename_i hright
    refine (expireAt_stays (by omega) (by omega)).bind fun r _ => ?_
    refine (expireAt_stays h0 (by omega)).bind fun l _ => stays_pure ?_
    split <;> omega
  · exact stays_pure ⟨Int.le_refl child, hchild⟩

/-- The hole of `percolate_down` goes to greater and greater places below `cur_size`. With at most
2^30 timers the places of its children are `int`s. -/
theorem percolateLoop_stays (temp : Ptr) (hole : Int) (h : IntHeap κ υ) (h0 : 0 ≤ hole)
    (hcap : hole < h.capacity) (hnonneg : 0 ≤ h.curSize) (hsize : h.curSize ≤ h.capacity)
    (hfew : ¬ lax → h.curSize ≤ 2 ^ 30 ∧ hole < 2 ^ 30) :
    Stays lax (SameSize h) (percolateLoop h temp hole) := by
  induction hn : (h.curSize - hole).toNat using Nat.strongRecOn generalizing h hole with
  | ind n ih =>
    have hleft : Stays lax (· = hole * 2 + 1) (int (hole * 2 + 1)) := by
      refine int_stays fun hstrict => ?_
      have hfew := hfew hstrict
      simp only [intMin, intMax]
      omega
    have hlast : Stays lax (· = h.curSize - 1) (int (h.curSize - 1)) := by
      refine int_stays fun hstrict => ?_
      have hfew := hfew hstrict
      simp only [intMin, intMax]
      omega
    rw [percolateLoop_turn, percolateIter]
    refine hleft.bind fun left eleft => hlast.bind fun last elast => ?_
    split
    · refine (chooseChild_stays (by omega) (by omega) (by omega)).bind fun c hchild => ?_
      have hc0 : 0 ≤ c := by omega
      have hc : c < h.capacity := by omega
      refine (expireAt_stays hc0 hc).bind fun e _ => (load_stays h temp).bind fun t _ => ?_
      split
      · refine (get_stays hc0 hc).bind fun p _ => (set_stays h0 hcap p).bind fun h₁ h₁' => ?_
        obtain ⟨hcap₁, hsize₁⟩ := h₁'
        have hfew₁ : ¬ lax → h₁.curSize ≤ 2 ^ 30 ∧ c < 2 ^ 30 := fun hstrict => by
          have hfew := hfew hstrict
          omega
        have hrec := ih _ (by omega) c h₁ hc0 (by omega) (by omega) (by omega) hfew₁ rfl
        exact hrec.imp fun _ h₂ => SameSize.trans ⟨hcap₁, hsize₁⟩ h₂
      · exact set_stays h0 hcap temp
    · exact set_stays h0 hcap temp

theorem percolateDown_stays (hole : Int) (h0 : 0 ≤ hole) (hcap : hole < h.capacity)
    (hnonneg : 0 ≤ h.curSize) (hsize : h.curSize ≤ h.capacity)
    (hfew : ¬ lax → h.curSize ≤ 2 ^ 30 ∧ hole < 2 ^ 30) :
    Stays lax (SameSize h) (percolateDown h hole) :=
  (get_stays h0 hcap).bind fun p _ => percolateLoop_stays p hole h h0 hcap hnonneg hsize hfew

/-! ## The members -/

structure Bounded (h : IntHeap κ υ) : Prop where
  capacity : 0 < h.capacity
  fits : h.capacity ≤ intMax
  nonneg : 0 ≤ h.curSize
  size : h.curSize ≤ h.capacity

theorem SameSize.bounded {h' : IntHeap κ υ} (hs : SameSize h h') (hb : Bounded h) :
    Bounded h' := by
  obtain ⟨hcap, hsize⟩ := hs
  exact ⟨hcap ▸ hb.capacity, hcap ▸ hb.fits, hsize ▸ hb.nonneg, by
    rw [hcap, hsize]
    exact hb.size⟩

/-- Of a positive capacity twice as much is more. -/
theorem makeRoom_stays (hb : Bounded h) (hroom : h.curSize ≥ h.capacity → h.capacity < 2 ^ 30) :
    Stays lax (fun h' => h'.curSize = h.curSize ∧ h.curSize < h'.capacity ∧ h'.capacity ≤ intMax)
      (makeRoom h) := by
  obtain ⟨hcap, hfits, hnonneg, hsize⟩ := hb
  unfold makeRoom
  split
  · rename_i hfull
    have hroom := hroom hfull
    have hfit : 2 * h.capacity ≤ intMax := by
      simp only [intMax]
      omega
    rw [resize_eq hsize (by omega) hfit]
    refine stays_pure ⟨rfl, ?_, hfit⟩
    show h.curSize < 2 * h.capacity
    omega
  · exact stays_pure ⟨rfl, by omega, hfits⟩

theorem addTimer_stays (hb : Bounded h) (timer : Ptr) (grows : Bool)
    (hroom : h.curSize ≥ h.capacity → h.capacity < 2 ^ 30) :
    Stays lax Bounded (addTimer h timer grows) := by
  have hcap := hb.capacity
  have hnonneg := hb.nonneg
  unfold addTimer
  split
  · exact stays_pure hb
  · split
    · rename_i hfull
      have hroom := hroom hfull.1
      refine (int_stays fun _ => ?_).bind fun _ _ => stays_pure hb
      simp only [intMin, intMax]
      omega
    · refine (makeRoom_stays hb hroom).bind fun h₁ h₁' => ?_
      obtain ⟨hsize₁, hlt, hfit₁⟩ := h₁'
      refine (int_stays fun _ => ⟨?_, by omega⟩).bind fun size hsize => ?_
      · simp only [intMin]
        omega
      refine Stays.imp (addLoop_stays timer h₁.curSize { h₁ with curSize := size } (by omega)
        (by show h₁.curSize < h₁.capacity; omega)) ?_
      refine fun h₂ h₂' => h₂'.bounded ⟨?_, hfit₁, ?_, ?_⟩
      · show 0 < h₁.capacity
        omega
      · show 0 ≤ size
        omega
      · show size ≤ h₁.capacity
        omega

/-- A deletion does not go through `array`. -/
theorem delTimer_stays (h : IntHeap κ υ) (timer : Ptr) :
    Stays lax (fun h' => SameSize h h' ∧ h'.array = h.array) (delTimer h timer) := by
  cases timer with
  | none => exact stays_pure ⟨SameSize.refl h, rfl⟩
  | some a => exact (load_stays h (some a)).bind fun t _ => stays_pure ⟨⟨rfl, rfl⟩, rfl⟩

theorem top_stays (hb : Bounded h) : Stays lax (fun _ => True) (top h) := by
  unfold top
  split
  · exact stays_pure trivial
  · exact get_stays (Int.le_refl 0) hb.capacity

/-- `array[0] = array[--cur_size]` reads the last timer. -/
theorem popTimer_stays (hb : Bounded h) (hfew : ¬ lax → h.curSize ≤ 2 ^ 30 + 1) :
    Stays lax (fun h' => Bounded h' ∧ (h.curSize ≠ 0 → h.array 0 ≠ none → h'.curSize < h.curSize))
      (popTimer h) := by
  have hcap := hb.capacity
  have hfits := hb.fits
  have hnonneg := hb.nonneg
  have hsize := hb.size
  unfold popTimer
  split
  · rename_i hempty
    exact stays_pure ⟨hb, fun hne => absurd hempty hne⟩
  · rename_i hne
    have hroot : get h 0 = pure (h.array 0) := if_pos ⟨Int.le_refl 0, hcap⟩
    rw [hroot, pure_bind]
    cases h.array 0 with
    | none => exact stays_pure ⟨hb, fun _ hnull => absurd rfl hnull⟩
    | some a =>
      refine (load_stays h (some a)).bind fun _ _ => ?_
      refine (int_stays fun _ => ⟨?_, by omega⟩).bind fun size esize => ?_
      · simp only [intMin]
        omega
      let g : IntHeap κ υ := { h with mem := Function.update h.mem a none, curSize := size }
      have hlast : size < g.capacity := by
        show size < h.capacity
        omega
      refine (get_stays (h := g) (by omega) hlast).bind fun last _ =>
        (set_stays (h := g) (Int.le_refl 0) hcap last).bind fun h₁ h₁' => ?_
      have hcap₁ : h₁.capacity = h.capacity := h₁'.1
      have hsize₁ : h₁.curSize = size := h₁'.2
      have hfew₁ : ¬ lax → h₁.curSize ≤ 2 ^ 30 ∧ (0 : Int) < 2 ^ 30 := fun hstrict => by
        have hfew := hfew hstrict
        omega
      have hdown := percolateDown_stays (h := h₁) 0 (Int.le_refl 0) (by omega) (by omega)
        (by omega) hfew₁
      refine hdown.imp fun h₂ h₂' => ?_
      refine ⟨h₂'.bounded ⟨by omega, by omega, by omega, by omega⟩, ?_⟩
      intro _ _
      rw [h₂'.2, hsize₁]
      omega

/-- By induction on the number of timers. -/
theorem tickLoop_stays (cur : Int) (h : IntHeap κ υ) (tmp : Ptr) (hb : Bounded h)
    (hfew : ¬ lax → h.curSize ≤ 2 ^ 30 + 1) :
    Stays lax (fun r => Bounded r.1) (tickLoop cur h tmp) := by
  induction hn : h.curSize.toNat using Nat.strongRecOn generalizing h tmp with
  | ind n ih =>
    rw [tickLoop_turn, tickIter.eq_def]
    split
    · exact stays_pure hb
    · rename_i hne
      cases tmp with
      | none => exact stays_pure hb
      | some b =>
        refine (load_stays h (some b)).bind fun t _ => ?_
        dsimp only
        split
        · exact stays_pure hb
        · have hroot : get h 0 = pure (h.array 0) := if_pos ⟨Int.le_refl 0, hb.capacity⟩
          rw [hroot, pure_bind]
          cases hp : h.array 0 with
          | none => exact stays_pointer
          | some a =>
            refine (load_stays h (some a)).bind fun u _ => ?_
            refine (popTimer_stays hb hfew).bind fun h₁ h₁' => ?_
            have hless := h₁'.2 hne (by rw [hp]; simp)
            have hnonneg := h₁'.1.nonneg
            refine (get_stays (Int.le_refl 0) h₁'.1.capacity).bind fun p _ => ?_
            have hfew₁ : ¬ lax → h₁.curSize ≤ 2 ^ 30 + 1 := fun hstrict => by
              have hfew := hfew hstrict
              omega
            refine (ih _ (by omega) h₁ p h₁'.1 hfew₁ rfl).bind fun r hr => stays_pure hr

theorem tick_stays (cur : Int) (hb : Bounded h) (hfew : ¬ lax → h.curSize ≤ 2 ^ 30 + 1) :
    Stays lax (fun r => Bounded r.1) (tick cur h) :=
  (get_stays (Int.le_refl 0) hb.capacity).bind fun p _ => tickLoop_stays cur h p hb hfew

theorem percolateAll_stays (i : Nat) (h : IntHeap κ υ) (hi : i ≤ h.curSize)
    (hsize : h.curSize ≤ h.capacity) (hfew : ¬ lax → h.curSize ≤ 2 ^ 30) :
    Stays lax (SameSize h) (percolateAll i h) := by
  induction i generalizing h with
  | zero => exact stays_pure (SameSize.refl h)
  | succ i ih =>
    have hfew' : ¬ lax → h.curSize ≤ 2 ^ 30 ∧ (i : Int) < 2 ^ 30 := fun hstrict => by
      have hfew := hfew hstrict
      omega
    have hdown := percolateDown_stays (h := h) i (by omega) (by omega) (by omega) hsize hfew'
    refine hdown.bind fun h₁ h₁' => ?_
    obtain ⟨hcap₁, hsize₁⟩ := h₁'
    have hrec := ih h₁ (by omega) (by omega) (by rw [hsize₁]; exact hfew)
    exact hrec.imp fun _ h₂ => SameSize.trans ⟨hcap₁, hsize₁⟩ h₂

/-! ## Sequences of calls -/

/-- The constructors, with their arguments. -/
inductive Ctor where
  | cap (cap : Int)
  | array (initArray : Nat → Ptr) (size capacity : Int)

/-- `cur_size` at first. -/
def Ctor.size : Ctor → Int
  | .cap _ => 0
  | .array _ size _ => size

/-- The arguments are `int`s, and the constructor does not throw. -/
def Ctor.Accepts : Ctor → Prop
  | .cap capacity => 0 ≤ capacity ∧ capacity ≤ intMax
  | .array _ size capacity => intMin ≤ size ∧ size ≤ capacity ∧ 0 ≤ capacity ∧ capacity ≤ intMax

def construct (mem : Nat → Option (HeapTimer κ υ)) : Ctor → Outcome (IntHeap κ υ)
  | .cap cap => pure (init cap mem)
  | .array initArray size capacity => build initArray size capacity mem

inductive Call (κ υ : Type) where
  /-- The rest of the program makes, changes and deletes timers. -/
  | memory (mem : Nat → Option (HeapTimer κ υ))
  | add (timer : Ptr) (grows : Bool)
  | del (timer : Ptr)
  | top
  | pop
  | tick (cur : Int)

def call (h : IntHeap κ υ) : Call κ υ → Outcome (IntHeap κ υ)
  | .memory mem => pure { h with mem := mem }
  | .add timer grows => addTimer h timer grows
  | .del timer => delTimer h timer
  | .top => do
    let _ ← top h
    pure h
  | .pop => popTimer h
  | .tick cur => do
    let r ← tick cur h
    pure r.1

def machine : Machine (Outcome (IntHeap κ υ)) (Call κ υ) where
  step s c := s >>= (call · c)
  ok _ _ := True

/-- No index was outside `array` and no `int` out of range, and the timers fit into the array. -/
def InRange (s : Outcome (IntHeap κ υ)) : Prop :=
  Stays False (fun h => h.curSize ≤ h.capacity) s

/-- What a heap can take: no timer where the array constructor was given a negative size; where the
array is full, a timer only if twice the capacity is an `int` and, when `new` gives the memory, more
than 0; `array[0]` is used only when there is one. -/
def Takes (h : IntHeap κ υ) : Call κ υ → Prop
  | .memory _ => True
  | .add none _ => True
  | .add (some _) grows => 0 ≤ h.curSize ∧
      (h.curSize ≥ h.capacity → h.capacity < 2 ^ 30 ∧ (grows = true → 0 < h.capacity))
  | .del _ => True
  | .top => h.curSize ≠ 0 → 0 < h.capacity
  | .pop => h.curSize ≠ 0 → 0 < h.capacity
  | .tick _ => 0 < h.capacity

def Roomy (s : Outcome (IntHeap κ υ)) (c : Call κ υ) : Prop := ∀ h, s = pure h → Takes h c

/-- So few timers that those left after the first one goes have children at places that are
`int`s. -/
def Few (s : Outcome (IntHeap κ υ)) : Call κ υ → Prop
  | .pop => ∀ h, s = pure h → h.curSize ≤ 2 ^ 30 + 1
  | .tick _ => ∀ h, s = pure h → h.curSize ≤ 2 ^ 30 + 1
  | _ => True

/-- Only a heap that never had a timer has a negative size. -/
structure Sound (h : IntHeap κ υ) : Prop where
  capacity : 0 ≤ h.capacity
  fits : h.capacity ≤ intMax
  min : intMin < h.curSize
  size : h.curSize ≤ h.capacity
  null : h.curSize < 0 → h.array 0 = none

theorem Bounded.sound (hb : Bounded h) : Sound h := by
  have hnonneg := hb.nonneg
  have hcap := hb.capacity
  exact ⟨by omega, hb.fits, by simp only [intMin]; omega, hb.size, fun hneg => by omega⟩

theorem Sound.same {h' : IntHeap κ υ} (hs : Sound h) (hsame : SameSize h h')
    (harray : h'.array = h.array) : Sound h' := by
  obtain ⟨hcap, hsize⟩ := hsame
  refine ⟨hcap ▸ hs.capacity, hcap ▸ hs.fits, hsize ▸ hs.min, ?_, ?_⟩
  · rw [hcap, hsize]
    exact hs.size
  · rw [hsize, harray]
    exact hs.null

/-- The loops of the constructor do nothing for a negative size. -/
theorem build_negative (initArray : Nat → Ptr) {size : Int} (capacity : Int)
    (mem : Nat → Option (HeapTimer κ υ)) (hmin : intMin < size) (hneg : size < 0) :
    build initArray size capacity mem = pure { init capacity mem with curSize := size } := by
  have hne : size ≠ 0 := by omega
  have hnone : size.toNat = 0 := by omega
  have htdiv : (size - 1).tdiv 2 = -(-(size - 1) / 2) := by
    rw [← Int.tdiv_eq_ediv_of_nonneg (by omega), Int.neg_tdiv, Int.neg_neg]
  have hlast : ((size - 1).tdiv 2 + 1).toNat = 0 := by omega
  have hint : int (size - 1) = pure (size - 1) :=
    int_eq (by omega) (by simp only [intMax]; omega)
  simp only [build, hne, ne_eq, not_false_eq_true, if_true, hnone, copyLoop, pure_bind, hint, hlast,
    percolateAll]

theorem build_stays (initArray : Nat → Ptr) {size capacity : Int}
    (mem : Nat → Option (HeapTimer κ υ)) (hmin : intMin < size) (hcap : size ≤ capacity)
    (hcap0 : 0 ≤ capacity) (hfits : capacity ≤ intMax) (hfew : ¬ lax → size ≤ 2 ^ 30) :
    Stays lax Sound (build initArray size capacity mem) := by
  have hinit : Sound ({ init capacity mem with curSize := size } : IntHeap κ υ) :=
    ⟨hcap0, hfits, hmin, hcap, fun _ => rfl⟩
  rcases Int.lt_trichotomy size 0 with hneg | rfl | hpos
  · rw [build_negative initArray capacity mem hmin hneg]
    exact stays_pure hinit
  · exact stays_pure hinit
  · have hne : size ≠ 0 := by omega
    have hread : ∀ j, j < 0 + size.toNat →
        Stays lax (fun _ => True) (pure (initArray j) : Outcome Ptr) :=
      fun j _ => stays_pure trivial
    have hcopy := copyLoop_stays size.toNat 0
      ({ init capacity mem with curSize := size } : IntHeap κ υ) hread
      (by show ((0 + size.toNat : Nat) : Int) ≤ capacity; omega)
    simp only [build, hne, ne_eq, not_false_eq_true, if_true]
    refine hcopy.bind fun h₁ h₁' => ?_
    have hcap₁ : h₁.capacity = capacity := h₁'.1
    have hsize₁ : h₁.curSize = size := h₁'.2
    have hint : Stays lax (· = h₁.curSize - 1) (int (h₁.curSize - 1)) := int_stays fun _ => by
      simp only [intMin, intMax] at hmin hfits ⊢
      omega
    refine hint.bind fun last elast => ?_
    have hlast : last.tdiv 2 = last / 2 := Int.tdiv_eq_ediv_of_nonneg (by omega)
    rw [hlast]
    refine (percolateAll_stays _ h₁ (by omega) (by omega) (by rw [hsize₁]; exact hfew)).imp ?_
    intro h₂ h₂'
    obtain ⟨hcap₂, hsize₂⟩ := h₂'
    exact ⟨by omega, by omega, by omega, by omega, fun hneg => by omega⟩

/-! ## One call -/

theorem not_inRange {f : Fault} (hf : f ≠ .pointer) :
    ¬ InRange (throw f : Outcome (IntHeap κ υ)) := by
  rintro (e | ⟨hno, -⟩ | ⟨_, e, _⟩)
  · cases e
    exact hf rfl
  · exact hno
  · cases e

theorem get_nowhere (hcap : h.capacity = 0) : get h 0 = throw (.range 0) :=
  if_neg fun hi => absurd hi.2 (by omega)

/-- `cur_size` is the index, whatever the capacity. -/
theorem addTimer_negative (hs : Sound h) (hneg : h.curSize < 0) (a : Nat) (grows : Bool) :
    addTimer h (some a) grows = throw (.range h.curSize) := by
  have hcap := hs.capacity
  have hmin := hs.min
  have hroom : ¬ h.curSize ≥ h.capacity := by omega
  have hout : ¬ (0 ≤ h.curSize ∧ h.curSize < h.capacity) := by omega
  have hhole : ¬ h.curSize > 0 := by omega
  simp only [addTimer, makeRoom, reduceCtorEq, hroom, false_and, if_false, pure_bind]
  rw [int_eq (by omega) (by simp only [intMax]; omega), pure_bind, addLoop, dif_neg hhole]
  exact if_neg hout

/-- Twice the capacity is computed before there is any memory for it. -/
theorem addTimer_overflow (hfull : h.curSize ≥ h.capacity) (hcap : 2 ^ 30 ≤ h.capacity) (a : Nat)
    (grows : Bool) : addTimer h (some a) grows = throw .overflow := by
  have hint : int (2 * h.capacity) = throw .overflow := int_overflow (by
    simp only [intMax]
    omega)
  cases grows with
  | false => simp only [addTimer, reduceCtorEq, hfull, and_self, if_true, if_false, hint]; rfl
  | true =>
    simp only [addTimer, makeRoom, resize, reduceCtorEq, hfull, Bool.true_eq_false, and_false,
      if_true, if_false, hint]
    rfl

/-- `resize` of a capacity of 0 makes no room, and the new timer goes to `array[0]`. -/
theorem addTimer_nowhere (hcap : h.capacity = 0) (hsize : h.curSize = 0) (a : Nat) :
    addTimer h (some a) true = throw (.range 0) := by
  have hfull : h.curSize ≥ h.capacity := by omega
  have hroom := resize_eq (h := h) (by omega) (by omega) (by simp only [intMax]; omega)
  have hint : int (h.curSize + 1) = pure (h.curSize + 1) :=
    int_eq (by simp only [intMin]; omega) (by simp only [intMax]; omega)
  simp only [addTimer, makeRoom, reduceCtorEq, hfull, Bool.true_eq_false, and_false, if_true,
    if_false, hroom, pure_bind, hint]
  rw [addLoop, dif_neg (by omega), hsize]
  exact if_neg fun hi => absurd hi.2 (by show ¬ (0 : Int) < 2 * h.capacity; omega)

/-- What a heap cannot take goes wrong at once. -/
theorem takes_of_inRange (hs : Sound h) {c : Call κ υ} (hin : InRange (call h c)) :
    Takes h c := by
  have hcap0 := hs.capacity
  have hsize := hs.size
  cases c with
  | memory mem => trivial
  | add timer grows =>
    cases timer with
    | none => trivial
    | some a =>
      refine ⟨Int.not_lt.mp fun hneg => ?_, fun hfull => ⟨Int.not_le.mp fun hcap => ?_, ?_⟩⟩
      · rw [call, addTimer_negative hs hneg] at hin
        exact not_inRange (by simp) hin
      · rw [call, addTimer_overflow hfull hcap] at hin
        exact not_inRange (by simp) hin
      · rintro rfl
        refine Int.not_le.mp fun hcap => ?_
        rw [call, addTimer_nowhere (by omega) (by omega)] at hin
        exact not_inRange (by simp) hin
  | del timer => trivial
  | top =>
    intro hne
    refine Int.not_le.mp fun hcap => ?_
    have hroot := get_nowhere (h := h) (by omega)
    simp only [call, top, hne, if_false, hroot] at hin
    exact not_inRange (by simp) hin
  | pop =>
    intro hne
    refine Int.not_le.mp fun hcap => ?_
    have hroot := get_nowhere (h := h) (by omega)
    simp only [call, popTimer, hne, if_false, hroot] at hin
    exact not_inRange (by simp) hin
  | tick cur =>
    refine Int.not_le.mp fun hcap => ?_
    have hroot := get_nowhere (h := h) (by omega)
    simp only [call, tick, hroot] at hin
    exact not_inRange (by simp) hin

theorem call_bounded (hb : Bounded h) {c : Call κ υ} (ht : Takes h c)
    (hfew : ¬ lax → Few (pure h) c) : Stays lax Sound (call h c) := by
  cases c with
  | memory mem => exact stays_pure (hb.sound.same ⟨rfl, rfl⟩ rfl)
  | add timer grows =>
    cases timer with
    | none => exact stays_pure hb.sound
    | some a =>
      refine Stays.imp (addTimer_stays hb (some a) grows fun hfull => ?_) fun _ h' => h'.sound
      exact (ht.2 hfull).1
  | del timer => exact (delTimer_stays h timer).imp fun _ h' => hb.sound.same h'.1 h'.2
  | top => exact (top_stays hb).bind fun _ _ => stays_pure hb.sound
  | pop => exact (popTimer_stays hb fun hstrict => hfew hstrict h rfl).imp fun _ h' => h'.1.sound
  | tick cur =>
    exact (tick_stays cur hb fun hstrict => hfew hstrict h rfl).bind fun _ hr =>
      stays_pure hr.sound

/-- Without room, or with a negative size, the calls that the heap can take find no timer. -/
theorem call_idle (hs : Sound h) (hidle : h.curSize < 0 ∨ h.capacity = 0) {c : Call κ υ}
    (ht : Takes h c) : Stays lax Sound (call h c) := by
  have hcap := hs.capacity
  have hsize := hs.size
  have hroot : 0 < h.capacity → get h 0 = pure none := fun hpos => by
    rw [← hs.null (by omega)]
    exact if_pos ⟨Int.le_refl 0, hpos⟩
  cases c with
  | memory mem => exact stays_pure (hs.same ⟨rfl, rfl⟩ rfl)
  | add timer grows =>
    cases timer with
    | none => exact stays_pure hs
    | some a =>
      obtain ⟨hnonneg, hroom⟩ := ht
      have hfull : h.curSize ≥ h.capacity := by omega
      have hint : int (2 * h.capacity) = pure (2 * h.capacity) :=
        int_eq (by simp only [intMin]; omega) (by simp only [intMax]; omega)
      cases grows with
      | false =>
        simp only [call, addTimer, reduceCtorEq, hfull, and_self, if_true, if_false, hint,
          pure_bind]
        exact stays_pure hs
      | true =>
        have hpos := (hroom hfull).2 rfl
        omega
  | del timer => exact (delTimer_stays h timer).imp fun _ h' => hs.same h'.1 h'.2
  | top =>
    by_cases hempty : h.curSize = 0
    · simp only [call, top, hempty, if_true, pure_bind]
      exact stays_pure hs
    · simp only [call, top, hempty, if_false, hroot (ht hempty), pure_bind]
      exact stays_pure hs
  | pop =>
    by_cases hempty : h.curSize = 0
    · simp only [call, popTimer, hempty, if_true]
      exact stays_pure hs
    · simp only [call, popTimer, hempty, if_false, hroot (ht hempty), pure_bind]
      exact stays_pure hs
  | tick cur =>
    have hempty : ¬ h.curSize = 0 := by
      have hpos : 0 < h.capacity := ht
      omega
    simp only [call, tick, hroot ht, pure_bind]
    rw [tickLoop_turn, tickIter, if_neg hempty]
    exact stays_pure hs

theorem call_sound (hs : Sound h) {c : Call κ υ} (ht : Takes h c)
    (hfew : ¬ lax → Few (pure h) c) : Stays lax Sound (call h c) := by
  have hcap := hs.capacity
  by_cases hidle : h.curSize < 0 ∨ h.capacity = 0
  · exact call_idle hs hidle ht
  · exact call_bounded ⟨by omega, hs.fits, by omega, hs.size⟩ ht hfew

/-! ## Runs of calls -/

theorem step_sound {s : Outcome (IntHeap κ υ)} {c : Call κ υ} (hs : Stays lax Sound s)
    (hroomy : Roomy s c) (hfew : ¬ lax → Few s c) : Stays lax Sound (machine.step s c) := by
  rcases hs with rfl | ⟨hlax, rfl⟩ | ⟨h, rfl, hs⟩
  · exact .inl rfl
  · exact .inr (.inl ⟨hlax, rfl⟩)
  · exact call_sound hs (hroomy h rfl) hfew

theorem construct_sound (mem : Nat → Option (HeapTimer κ υ)) {c : Ctor} (hc : c.Accepts)
    (hmin : c.size ≠ intMin) (hfew : ¬ lax → c.size ≤ 2 ^ 30) :
    Stays lax Sound (construct mem c) := by
  cases c with
  | cap capacity =>
    obtain ⟨hcap, hfits⟩ := hc
    exact stays_pure ⟨hcap, hfits, by simp only [init, intMin]; omega, hcap, fun _ => rfl⟩
  | array initArray size capacity =>
    obtain ⟨hle, hcap, hcap0, hfits⟩ := hc
    have hne : size ≠ intMin := hmin
    exact build_stays initArray mem (by omega) hcap hcap0 hfits hfew

/-- `cur_size-1` of the least `int`. -/
theorem construct_least (mem : Nat → Option (HeapTimer κ υ)) {c : Ctor} (hmin : c.size = intMin) :
    construct mem c = throw .overflow := by
  cases c with
  | cap capacity => exact absurd hmin (by simp [Ctor.size, intMin])
  | array initArray size capacity =>
    have hsize : size = intMin := hmin
    subst hsize
    have hnone : intMin.toNat = 0 := by simp [intMin]
    have hne : intMin ≠ 0 := by simp [intMin]
    simp only [construct, build, hne, ne_eq, not_false_eq_true, if_true, hnone, copyLoop, pure_bind]
    rw [int, if_neg (by simp only [intMin]; omega)]
    rfl

/-- Each state of a run in range is one a call can start from; `lax`, because the run itself says
that no `int` went out of range. -/
theorem each_roomy {s : Outcome (IntHeap κ υ)} (hs : Stays True Sound s) {calls : List (Call κ υ)}
    (ha : machine.Always InRange s calls) : machine.Each Roomy s calls := by
  induction calls generalizing s with
  | nil => trivial
  | cons c calls ih =>
    obtain ⟨-, hrest⟩ := ha
    have hin : InRange (machine.step s c) :=
      Machine.always_iff_initial.mp hrest [] (List.nil_prefix)
    have hroomy : Roomy s c := by
      rintro h rfl
      rcases hs with e | ⟨-, e⟩ | ⟨h', e, hs⟩
      · cases e
      · cases e
      · cases e
        exact takes_of_inRange hs hin
    exact ⟨hroomy, ih (step_sound hs hroomy fun hno => absurd trivial hno) hrest⟩

theorem always_inRange {s : Outcome (IntHeap κ υ)} (hs : Stays False Sound s)
    {calls : List (Call κ υ)} (hroomy : machine.Each Roomy s calls)
    (hfew : machine.Each Few s calls) : machine.Always InRange s calls := by
  induction calls generalizing s with
  | nil => exact hs.imp fun _ h' => h'.size
  | cons c calls ih =>
    refine ⟨hs.imp fun _ h' => h'.size, ih ?_ hroomy.2 hfew.2⟩
    exact step_sound hs hroomy.1 fun _ => hfew.1

/-- From either constructor, in every sequence of calls: where no index is outside `array`, no `int`
out of range and the timers fit into it all the way, each call is one its heap can take. With at
most 2^30 timers for the constructor, and one more for a pop and a tick, that is enough. -/
theorem in_range_iff (mem : Nat → Option (HeapTimer κ υ)) (c : Ctor) (hc : c.Accepts)
    (calls : List (Call κ υ)) :
    (machine.Always InRange (construct mem c) calls →
      c.size ≠ intMin ∧ machine.Each Roomy (construct mem c) calls) ∧
    (c.size ≠ intMin → machine.Each Roomy (construct mem c) calls → c.size ≤ 2 ^ 30 →
      machine.Each Few (construct mem c) calls →
      machine.Always InRange (construct mem c) calls) := by
  constructor
  · intro ha
    have hin : InRange (construct mem c) :=
      Machine.always_iff_initial.mp ha [] (List.nil_prefix)
    have hmin : c.size ≠ intMin := by
      intro hmin
      rw [construct_least mem hmin] at hin
      exact not_inRange (by simp) hin
    exact ⟨hmin, each_roomy (construct_sound mem hc hmin fun hno => absurd trivial hno) ha⟩
  · intro hmin hroomy hsize hfew
    exact always_inRange (construct_sound mem hc hmin fun _ => hsize) hroomy hfew

/-- Heaps that cannot take a timer, as long as nobody gives them one: an empty array of capacity 0,
and one of size -1. -/
theorem in_range_alone :
    machine.Always InRange
        (construct (fun _ => none : Nat → Option (HeapTimer Unit Unit))
          (.array (fun _ => none) 0 0))
        [.top, .pop, .add none true, .add (some 1) false, .del none] ∧
      machine.Always InRange
        (construct (fun _ => none : Nat → Option (HeapTimer Unit Unit))
          (.array (fun _ => none) (-1) 5))
        [.top, .pop, .tick 7] := by
  constructor
  · refine (in_range_iff _ (.array (fun _ => none) 0 0) ⟨by decide, by decide, by decide, by decide⟩
      _).2 (by decide) ?_ (by decide) ?_
    · refine ⟨?_, ?_, ?_, ?_, ?_, trivial⟩
      · rintro h ⟨⟩ hne
        exact absurd rfl hne
      · rintro h ⟨⟩ hne
        exact absurd rfl hne
      · rintro h ⟨⟩
        trivial
      · rintro h ⟨⟩
        exact ⟨by decide, fun _ => ⟨by decide, by simp⟩⟩
      · rintro h ⟨⟩
        trivial
    · refine ⟨trivial, ?_, trivial, trivial, trivial, trivial⟩
      rintro h ⟨⟩
      decide
  · refine (in_range_iff _ (.array (fun _ => none) (-1) 5)
      ⟨by decide, by decide, by decide, by decide⟩ _).2 (by decide) ?_ (by decide) ?_
    · refine ⟨?_, ?_, ?_, trivial⟩
      · rintro h ⟨⟩ _
        decide
      · rintro h ⟨⟩ _
        decide
      · rintro h ⟨⟩
        exact show (0 : Int) < 5 by decide
    · refine ⟨trivial, ?_, ?_, trivial⟩
      · rintro h ⟨⟩
        decide
      · rintro h ⟨⟩
        decide

/-- `time_heap( 0 )`: the first `tick` reads `array[0]`, and a timer added is written there.
`time_heap( a, -1, 5 )`: a timer added is written to `array[-1]`. -/
theorem in_range_empty :
    ¬ machine.Always InRange
        (construct (fun a => some (⟨a, none, ()⟩ : HeapTimer Unit Unit)) (.cap 0)) [.tick 5] ∧
      ¬ machine.Always InRange
        (construct (fun a => some (⟨a, none, ()⟩ : HeapTimer Unit Unit)) (.cap 0))
        [.add (some 1) true] ∧
      ¬ machine.Always InRange
        (construct (fun a => some (⟨a, none, ()⟩ : HeapTimer Unit Unit))
          (.array (fun _ => none) (-1) 5))
        [.add (some 1) true] := by
  have hstart : Sound (init 0 fun a => some (⟨a, none, ()⟩ : HeapTimer Unit Unit)) :=
    ⟨Int.le_refl 0, by decide, by decide, Int.le_refl 0, fun _ => rfl⟩
  refine ⟨?_, ?_, ?_⟩
  · rintro ⟨-, hstep⟩
    have htakes : Takes _ (.tick 5) := takes_of_inRange hstart hstep
    exact absurd htakes (Int.lt_irrefl 0)
  · rintro ⟨-, hstep⟩
    have htakes : Takes _ (.add (some 1) true) := takes_of_inRange hstart hstep
    exact absurd ((htakes.2 (Int.le_refl 0)).2 rfl) (by decide)
  · have hnegative : Sound ({ init 5 (fun a => some (⟨a, none, ()⟩ : HeapTimer Unit Unit)) with
        curSize := -1 }) := ⟨by decide, by decide, by decide, by decide, fun _ => rfl⟩
    rintro ⟨-, hstep⟩
    rw [construct, build_negative _ _ _ (by decide) (by decide)] at hstep
    have htakes : Takes _ (.add (some 1) true) := takes_of_inRange hnegative hstep
    exact absurd htakes.1 (by decide)

end

end Checked
end TimerHeap
end Unpvol1
