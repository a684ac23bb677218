import Unpvol1.Lib.Machine
import Unpvol1.Lib.SortedBy
import Unpvol1.Timer.HeapBounds

/-!
# Timer.HeapRuns

Sequences of operations on a `time_heap`, and a whole tick.

* `Op`, `exec` — an operation as its caller performs it, on a heap and the timers around it.
* `Effect`     — what each operation may change; `effect_step` proves it of one operation.
* `machine`    — the operations with `int`s, and with what goes wrong.
* `heap_ops`   — in every sequence the heap order is kept and each operation has its effect, if the
  timer a pop deletes is in the heap once; `heap_ops_twice` — a timer added twice.
-/

namespace Unpvol1
namespace TimerHeap

open BinHeap Slots

inductive Op (κ υ : Type) where
  /-- The caller makes a timer at the address `a`. -/
  | new (a : Nat) (t : HeapTimer κ υ)
  | add (timer : Ptr)
  | del (timer : Ptr)
  | pop

section
variable {κ υ : Type}

def exec (h : TimeHeap κ υ) : Op κ υ → Option (TimeHeap κ υ)
  | .new a t => some { h with mem := Function.update h.mem a (some t) }
  | .add timer => addTimer h timer
  | .del timer => delTimer h timer
  | .pop => popTimer h

/-- A new timer takes a free address; NULL or a timer is added or deleted. -/
def Allowed (h : TimeHeap κ υ) : Op κ υ → Prop
  | .new a _ => h.mem a = none
  | .add timer => timer = none ∨ Live h.mem timer
  | .del timer => timer = none ∨ Live h.mem timer
  | .pop => True

/-- The timer a pop deletes is in the heap once, so that no pointer to it is left behind. -/
def Single (h : TimeHeap κ υ) : Op κ υ → Prop
  | .pop => h.curSize ≠ 0 → (held h).count (h.array 0) ≤ 1
  | _ => True

/-- What the operation computes with are `int`s. -/
def Fits (h : TimeHeap κ υ) : Op κ υ → Prop
  | .add (some _) => h.curSize ≥ h.capacity → 2 * (h.capacity : Int) ≤ Checked.intMax
  | .pop => h.curSize ≤ 2 ^ 30 + 1
  | _ => True

def Checked.exec (h : Checked.IntHeap κ υ) : Op κ υ → Outcome (Checked.IntHeap κ υ)
  | .new a t => pure { h with mem := Function.update h.mem a (some t) }
  | .add timer => Checked.addTimer h timer true
  | .del timer => Checked.delTimer h timer
  | .pop => Checked.popTimer h

def machine : Machine (Outcome (Checked.IntHeap κ υ)) (Op κ υ) where
  step s op := s >>= (Checked.exec · op)
  ok s op := ∀ h, s = pure (Checked.ofNat h) → Allowed h op ∧ Single h op ∧ Fits h op

/-- What an operation on the heap `h` leaves in `h'`. -/
def Effect (h h' : TimeHeap κ υ) : Op κ υ → Prop
  | .new a t => h' = { h with mem := Function.update h.mem a (some t) }
  | .add none => h' = h
  | .add (some a) => h'.mem = h.mem ∧ (held h').Perm (some a :: held h)
  | .del none => h' = h
  | .del (some a) => ∃ t, h.mem a = some t ∧
      h' = { h with mem := Function.update h.mem a (some { t with cbFunc := none }) }
  | .pop =>
      if h.curSize = 0 then h' = h
      else ∃ a, (held h).Perm (some a :: held h') ∧ h'.mem = Function.update h.mem a none ∧
        ∀ p ∈ held h, expireOf h.mem (some a) ≤ expireOf h.mem p

theorem HeapState.new {h : TimeHeap κ υ} (hs : HeapState h) {a : Nat} (ha : h.mem a = none)
    (t : HeapTimer κ υ) : HeapState { h with mem := Function.update h.mem a (some t) } := by
  have hne : ∀ i < h.curSize, h.array i ≠ some a := by
    intro i hi e
    obtain ⟨b, u, hp, hu⟩ := hs.live i hi
    rw [e] at hp
    rw [← Option.some.inj hp, ha] at hu
    cases hu
  have hexp : ∀ i < h.curSize,
      expireOf (Function.update h.mem a (some t)) (h.array i) = expireOf h.mem (h.array i) := by
    intro i hi
    obtain ⟨b, u, hp, hu⟩ := hs.live i hi
    have hb : b ≠ a := fun e => hne i hi (by rw [hp, e])
    simp [expireOf, hp, hb]
  refine ⟨hs.capacity, hs.size, ?_, ?_⟩
  · intro i hi
    obtain ⟨b, u, hp, hu⟩ := hs.live i hi
    have hb : b ≠ a := fun e => hne i hi (by rw [hp, e])
    exact ⟨b, u, hp, by simp [hb, hu]⟩
  · intro i hi0 hi
    have hpar := parent_lt (Nat.ne_of_gt hi0)
    have hpar' : parent i < h.curSize := Nat.lt_trans hpar hi
    show expireOf (Function.update h.mem a (some t)) (h.array (parent i)) ≤
      expireOf (Function.update h.mem a (some t)) (h.array i)
    rw [hexp _ hpar', hexp _ hi]
    exact hs.order i hi0 hi

theorem effect_step {h : TimeHeap κ υ} (hs : HeapState h) {op : Op κ υ} (hok : Allowed h op)
    (hsingle : Single h op) :
    ∃ h', exec h op = some h' ∧ HeapState h' ∧ Effect h h' op := by
  cases op with
  | new a t => exact ⟨_, rfl, hs.new hok t, rfl⟩
  | add timer =>
    cases timer with
    | none => exact ⟨h, by simp [exec, addTimer], hs, rfl⟩
    | some a =>
      obtain ⟨h', e, hs', hmem, hheld⟩ := addTimer_spec hs (hok.resolve_left (by simp))
      exact ⟨h', e, hs', hmem, hheld⟩
  | del timer =>
    cases timer with
    | none => exact ⟨h, by simp [exec, delTimer], hs, rfl⟩
    | some a =>
      obtain ⟨b, t, hb, ht⟩ := hok.resolve_left (by simp)
      rw [← Option.some.inj hb] at ht
      obtain ⟨h', e, hs', heq⟩ := delTimer_spec hs ht
      exact ⟨h', e, hs', t, ht, heq⟩
  | pop =>
    by_cases h0 : h.curSize = 0
    · exact ⟨h, by simp [exec, popTimer, h0], hs, by simp [Effect, h0]⟩
    · obtain ⟨a, h', -, e, hs', hmem, hheld, hmin⟩ := popTimer_spec hs h0 (hsingle h0)
      exact ⟨h', e, hs', by simpa [Effect, h0] using ⟨a, hheld, hmem, hmin⟩⟩

/-- As long as the `int`s are large enough, the operations are those on heaps without. -/
theorem exec_mirrors {h : TimeHeap κ υ} (hs : HeapState h)
    (hint : (h.capacity : Int) ≤ Checked.intMax) {op : Op κ υ} (hfits : Fits h op) :
    Mirrors Checked.ofNat (Checked.exec (Checked.ofNat h) op) (exec h op) := by
  cases op with
  | new a t => exact mirrors_pure { h with mem := Function.update h.mem a (some t) }
  | add timer =>
    cases timer with
    | none => rfl
    | some a => exact Checked.forget_addTimer hs.size hint hfits (some a)
  | del timer => exact Checked.forget_delTimer h timer
  | pop => exact Checked.forget_popTimer h hfits

/-- The capacity is an `int` still. -/
theorem exec_capacity {h h' : TimeHeap κ υ} (hs : HeapState h)
    (hint : (h.capacity : Int) ≤ Checked.intMax) {op : Op κ υ} (hfits : Fits h op)
    (e : Checked.exec (Checked.ofNat h) op = pure (Checked.ofNat h')) :
    (h'.capacity : Int) ≤ Checked.intMax := by
  have hb : Checked.Bounded (Checked.ofNat h) := by
    have hcap := hs.capacity
    have hsize := hs.size
    exact ⟨by simp only [Checked.ofNat_capacity]; omega, hint,
      by simp only [Checked.ofNat_curSize]; omega,
      by simp only [Checked.ofNat_curSize, Checked.ofNat_capacity]; omega⟩
  have hstays : Checked.Stays False (fun g => g.capacity ≤ Checked.intMax)
      (Checked.exec (Checked.ofNat h) op) := by
    cases op with
    | new a t => exact Checked.stays_pure hint
    | add timer =>
      cases timer with
      | none => exact Checked.stays_pure hint
      | some a =>
        refine (Checked.addTimer_stays hb (some a) true fun hfull => ?_).imp fun _ hb' => hb'.fits
        simp only [Checked.ofNat_curSize, Checked.ofNat_capacity] at hfull ⊢
        have hroom : 2 * (h.capacity : Int) ≤ 2 ^ 31 - 1 := hfits (by omega)
        omega
    | del timer =>
      exact (Checked.delTimer_stays _ timer).imp fun g hg => hg.1.1 ▸ hint
    | pop =>
      refine (Checked.popTimer_stays hb fun _ => ?_).imp fun _ hb' => hb'.1.fits
      simp only [Checked.ofNat_curSize]
      have hfits : h.curSize ≤ 2 ^ 30 + 1 := hfits
      omega
  rw [e] at hstays
  exact hstays.of_pure

/-- The heap of every state of a run: in order, and with a capacity that is an `int`. -/
def InOrder (s : Outcome (Checked.IntHeap κ υ)) : Prop :=
  ∃ h, s = pure (Checked.ofNat h) ∧ HeapState h ∧ (h.capacity : Int) ≤ Checked.intMax

theorem step_spec {s : Outcome (Checked.IntHeap κ υ)} {op : Op κ υ} (hs : InOrder s)
    (hok : machine.ok s op) :
    ∃ h h', s = pure (Checked.ofNat h) ∧ machine.step s op = pure (Checked.ofNat h') ∧
      InOrder (machine.step s op) ∧ Effect h h' op := by
  obtain ⟨h, rfl, hs, hint⟩ := hs
  obtain ⟨hallowed, hsingle, hfits⟩ := hok h rfl
  obtain ⟨h', e, hs', heff⟩ := effect_step hs hallowed hsingle
  have hstep : Checked.exec (Checked.ofNat h) op = pure (Checked.ofNat h') :=
    (exec_mirrors hs hint hfits).eq_pure e
  exact ⟨h, h', rfl, hstep, ⟨h', hstep, hs', exec_capacity hs hint hfits hstep⟩, heff⟩

/-- From every heap in order, in every sequence of operations in which each pop finds the timer it
deletes in the heap once: the heap stays in order, an addition adds exactly the given timer, a pop
takes out exactly one timer, of smallest `expire`, and a deletion changes the callback of its timer
and nothing else. -/
theorem heap_ops (h₀ : TimeHeap κ υ) (hs : HeapState h₀)
    (hint : (h₀.capacity : Int) ≤ Checked.intMax) (ops : List (Op κ υ))
    (hv : machine.Valid (pure (Checked.ofNat h₀)) ops) :
    machine.Always (fun s => ∃ h, s = pure (Checked.ofNat h) ∧ HeapState h)
        (pure (Checked.ofNat h₀)) ops ∧
      machine.Each (fun s op => ∃ h h', s = pure (Checked.ofNat h) ∧
        machine.step s op = pure (Checked.ofNat h') ∧ Effect h h' op)
        (pure (Checked.ofNat h₀)) ops := by
  have hinv : ∀ s (op : Op κ υ), InOrder s → machine.ok s op → InOrder (machine.step s op) := by
    intro s op hs hok
    obtain ⟨-, -, -, -, hs', -⟩ := step_spec hs hok
    exact hs'
  have hstart : InOrder (pure (Checked.ofNat h₀)) := ⟨h₀, rfl, hs, hint⟩
  constructor
  · refine (Machine.always_inv hinv hstart hv).imp fun s hs => ?_
    obtain ⟨h, e, hs, -⟩ := hs
    exact ⟨h, e, hs⟩
  · refine Machine.each_inv hinv ?_ hstart hv
    intro s op hs hok
    obtain ⟨h, h', e, e', -, heff⟩ := step_spec hs hok
    exact ⟨h, h', e, e', heff⟩

theorem valid_cons {h h' : TimeHeap κ υ} {op : Op κ υ} {ops : List (Op κ υ)}
    (hs : HeapState h) (hint : (h.capacity : Int) ≤ Checked.intMax) (hok : Allowed h op)
    (hsingle : Single h op) (hfits : Fits h op) (e : exec h op = some h')
    (hv : machine.Valid (pure (Checked.ofNat h')) ops) :
    machine.Valid (pure (Checked.ofNat h)) (op :: ops) := by
  refine ⟨?_, ?_⟩
  · intro h₁ e₁
    obtain rfl := Checked.ofNat_inj (pure_inj e₁)
    exact ⟨hok, hsingle, hfits⟩
  · have hstep : machine.step (pure (Checked.ofNat h)) op = pure (Checked.ofNat h') :=
      (exec_mirrors hs hint hfits).eq_pure e
    rwa [hstep]

theorem HeapState.init {cap : Nat} (hcap : 1 ≤ cap) (mem : Nat → Option (HeapTimer κ υ)) :
    HeapState (init cap mem) := by
  refine ⟨hcap, Nat.zero_le cap, ?_, ?_⟩
  · intro i hi
    exact absurd hi (Nat.not_lt_zero i)
  · intro i _ hi
    exact absurd hi (Nat.not_lt_zero i)

/-- Two timers into a heap of capacity 1, one of them deleted, and a pop. -/
theorem heap_ops_run :
    machine.Always (fun s => ∃ h, s = pure (Checked.ofNat h) ∧ HeapState h)
        (pure (Checked.ofNat (init 1 fun _ => none : TimeHeap Unit Unit)))
        [.new 1 ⟨7, some (), ()⟩, .add (some 1), .new 2 ⟨3, some (), ()⟩, .add (some 2),
          .del (some 1), .pop] ∧
      machine.Each (fun s op => ∃ h h', s = pure (Checked.ofNat h) ∧
          machine.step s op = pure (Checked.ofNat h') ∧ Effect h h' op)
        (pure (Checked.ofNat (init 1 fun _ => none : TimeHeap Unit Unit)))
        [.new 1 ⟨7, some (), ()⟩, .add (some 1), .new 2 ⟨3, some (), ()⟩, .add (some 2),
          .del (some 1), .pop] := by
  have hs := HeapState.init (κ := Unit) (υ := Unit) (Nat.le_refl 1) fun _ => none
  have hone : ((1 : Nat) : Int) ≤ Checked.intMax := by decide
  refine heap_ops _ hs hone _ ?_
  have hs₁ := hs.new (a := 1) rfl ⟨7, some (), ()⟩
  have hlive₁ : Live (Function.update (fun _ => none) 1 (some ⟨7, some (), ()⟩) :
      Nat → Option (HeapTimer Unit Unit)) (some 1) := ⟨1, ⟨7, some (), ()⟩, rfl, by simp⟩
  obtain ⟨h₂, e₂, hs₂, hmem₂, hheld₂⟩ := addTimer_spec hs₁ hlive₁
  have he₂ : h₂ = ⟨Function.update (fun _ => none) 0 (some 1), 1, 1,
      Function.update (fun _ => none) 1 (some ⟨7, some (), ()⟩)⟩ := by
    rw [addTimer, if_neg (by simp), if_neg (by simp [init]), addLoop, dif_neg (by simp [init]), set,
      if_pos (by simp [init])] at e₂
    exact (Option.some.inj e₂).symm
  have hint₂ : (h₂.capacity : Int) ≤ Checked.intMax := by
    rw [he₂]
    exact hone
  have hfree : h₂.mem 2 = none := by rw [hmem₂]; rfl
  have hs₃ := hs₂.new hfree ⟨3, some (), ()⟩
  have hlive₃ : Live (Function.update h₂.mem 2 (some ⟨3, some (), ()⟩)) (some 2) :=
    ⟨2, ⟨3, some (), ()⟩, rfl, by simp⟩
  obtain ⟨h₄, e₄, hs₄, hmem₄, hheld₄⟩ := addTimer_spec hs₃ hlive₃
  have hfits₃ : Fits { h₂ with mem := Function.update h₂.mem 2 (some ⟨3, some (), ()⟩) }
      (.add (some 2)) := by
    rw [he₂]
    exact fun _ => by decide
  have hint₄ := exec_capacity hs₃ hint₂ hfits₃ ((exec_mirrors hs₃ hint₂ hfits₃).eq_pure e₄)
  have hlive : h₄.mem 1 = some ⟨7, some (), ()⟩ := by simp [hmem₄, hmem₂]
  obtain ⟨h₅, e₅, hs₅, rfl⟩ := delTimer_spec hs₄ hlive
  have hheld : (held h₄).Perm [some 2, some 1] := hheld₄.trans (hheld₂.cons _)
  refine valid_cons hs hone rfl trivial trivial rfl ?_
  refine valid_cons hs₁ hone (.inr hlive₁) trivial (fun _ => by decide) e₂ ?_
  refine valid_cons hs₂ hint₂ hfree trivial trivial rfl ?_
  refine valid_cons hs₃ hint₂ (.inr hlive₃) trivial hfits₃ e₄ ?_
  refine valid_cons hs₄ hint₄ (.inr ⟨1, _, rfl, hlive⟩) trivial trivial e₅ ⟨?_, trivial⟩
  intro h e
  obtain rfl := Checked.ofNat_inj (pure_inj e)
  have hnodup : (held h₄).Nodup := hheld.nodup_iff.mpr (by decide)
  have hsize : h₄.curSize = 2 := by
    have hlength := hheld.length_eq
    simpa [held, contents] using hlength
  refine ⟨trivial, fun _ => List.nodup_iff_count_le_one.mp hnodup _, ?_⟩
  show h₄.curSize ≤ 2 ^ 30 + 1
  omega

/-- An addition that finds no later timer over it. -/
theorem addTimer_last {h : TimeHeap κ υ} {a : Nat} {t : HeapTimer κ υ} {e : Int}
    (hroom : h.curSize < h.capacity) (ha : h.mem a = some t) (hpos : h.curSize ≠ 0)
    (he : expireAt h ((h.curSize - 1) / 2) = some e) (hle : e ≤ t.expire) :
    addTimer h (some a) = some
      { h with array := Function.update h.array h.curSize (some a), curSize := h.curSize + 1 } := by
  have hparent : expireAt { h with curSize := h.curSize + 1 } ((h.curSize - 1) / 2) = some e := he
  have hload : load { h with curSize := h.curSize + 1 } (some a) = some t := ha
  rw [addTimer, if_neg (by simp), if_neg (by omega), addLoop, dif_pos (by omega)]
  simp only [hparent, hload, Option.bind_eq_bind, Option.bind_some, hle, if_true]
  exact if_pos hroom

/-- The addresses 1 and 2 hold timers due at 1 and at 2; `k` of the three additions are done. -/
def twice (k : Nat) : TimeHeap Unit Unit :=
  ⟨fun i => if i < k then some (if i = 2 then 2 else 1) else none, 4, k,
    fun a => some ⟨a, none, ()⟩⟩

theorem twice_expireOf {j k : Nat} (hj : j < k) :
    expireOf (twice k).mem ((twice k).array j) = if j = 2 then 2 else 1 := by
  have harray : (twice k).array j = some (if j = 2 then 2 else 1) := if_pos hj
  rw [harray]
  show ((if j = 2 then 2 else 1 : Nat) : Int) = if j = 2 then 2 else 1
  split
  · rfl
  · rfl

theorem twice_state {k : Nat} (hk : k ≤ 3) : HeapState (twice k) := by
  refine ⟨show 1 ≤ 4 by omega, show k ≤ 4 by omega, ?_, ?_⟩
  · intro i hi
    exact ⟨if i = 2 then 2 else 1, _, if_pos hi, rfl⟩
  · intro i hi0 hi
    have hi : i < k := hi
    have hparent : parent i < k := Nat.lt_trans (parent_lt (Nat.ne_of_gt hi0)) hi
    have hroot : ¬ parent i = 2 := by
      have hlt := parent_lt (Nat.ne_of_gt hi0)
      omega
    rw [twice_expireOf hparent, twice_expireOf hi, if_neg hroot]
    split <;> omega

theorem twice_add {k : Nat} (hk : k < 3) :
    exec (twice k) (.add (some (if k = 2 then 2 else 1))) = some (twice (k + 1)) := by
  have harray : Function.update (twice k).array k (some (if k = 2 then 2 else 1)) =
      (twice (k + 1)).array := by
    funext i
    by_cases hi : i = k
    · subst hi
      simp [twice]
    · have hlt : i < k ↔ i < k + 1 := by omega
      simp only [Function.update_of_ne hi, twice, hlt]
  by_cases hempty : k = 0
  · subst hempty
    rw [exec, addTimer, if_neg (by simp), if_neg (by decide), addLoop, dif_neg (by decide)]
    exact congrArg (fun v => some { twice 1 with array := v }) harray
  · have hparent : ¬ (k - 1) / 2 = 2 := by omega
    have hroot : expireAt (twice k) ((k - 1) / 2) = some 1 := by
      have hlt : (k - 1) / 2 < k := by omega
      have hlive := (twice_state (by omega : k ≤ 3)).live _ hlt
      rw [expireAt_eq (show (k - 1) / 2 < 4 by omega) hlive, twice_expireOf hlt, if_neg hparent]
    refine (addTimer_last (e := 1) (by show k < 4; omega) rfl hempty hroot ?_).trans ?_
    · show (1 : Int) ≤ ((if k = 2 then 2 else 1 : Nat) : Int)
      split <;> omega
    · exact congrArg (fun v => some { twice (k + 1) with array := v }) harray

/-- `array[1]` still leads to the timer that was at the root. -/
theorem twice_pop : Checked.popTimer (Checked.ofNat (twice 3)) = throw .pointer := by
  have hdown : Checked.popTimer (Checked.ofNat (twice 3)) = Checked.percolateLoop
      { Checked.ofNat (twice 3) with
        array := Function.update (twice 3).array 0 (some 2)
        mem := Function.update (twice 3).mem 1 none
        curSize := 2 } (some 2) 0 := rfl
  rw [hdown, Checked.percolateLoop_turn]
  rfl

theorem twice_step {k a : Nat} (hk : k < 3) (ha : a = if k = 2 then 2 else 1) :
    (∀ h, (pure (Checked.ofNat (twice k)) : Outcome (Checked.IntHeap Unit Unit)) =
        pure (Checked.ofNat h) → Allowed h (.add (some a)) ∧ Fits h (.add (some a))) ∧
      machine.step (pure (Checked.ofNat (twice k))) (.add (some a)) =
        pure (Checked.ofNat (twice (k + 1))) := by
  subst ha
  have hfits : Fits (twice k) (.add (some (if k = 2 then 2 else 1))) := fun hfull => by
    have hfull : k ≥ 4 := hfull
    omega
  constructor
  · intro h e
    obtain rfl := Checked.ofNat_inj (pure_inj e)
    exact ⟨.inr ⟨_, _, rfl, rfl⟩, hfits⟩
  · have hint : (((twice k).capacity : Nat) : Int) ≤ Checked.intMax := show (4 : Int) ≤ _ by decide
    exact (exec_mirrors (twice_state (by omega)) hint hfits).eq_pure (twice_add hk)

/-- A timer is added twice, and then one that is due later. The first pop deletes the one that is in
the heap twice, and looks at it again. -/
theorem heap_ops_twice :
    HeapState (twice 0) ∧
      machine.Each (fun s op => ∀ h, s = pure (Checked.ofNat h) → Allowed h op ∧ Fits h op)
        (pure (Checked.ofNat (twice 0))) [.add (some 1), .add (some 1), .add (some 2), .pop] ∧
      machine.run (pure (Checked.ofNat (twice 0)))
        [.add (some 1), .add (some 1), .add (some 2), .pop] = throw .pointer := by
  obtain ⟨hok₀, e₀⟩ := twice_step (k := 0) (a := 1) (by omega) rfl
  obtain ⟨hok₁, e₁⟩ := twice_step (k := 1) (a := 1) (by omega) rfl
  obtain ⟨hok₂, e₂⟩ := twice_step (k := 2) (a := 2) (by omega) rfl
  refine ⟨twice_state (by omega), ?_, ?_⟩
  · refine ⟨hok₀, ?_⟩
    rw [e₀]
    refine ⟨hok₁, ?_⟩
    rw [e₁]
    refine ⟨hok₂, ?_⟩
    rw [e₂]
    refine ⟨?_, trivial⟩
    intro h e
    obtain rfl := Checked.ofNat_inj (pure_inj e)
    exact ⟨trivial, show 3 ≤ 2 ^ 30 + 1 by omega⟩
  · rw [Machine.run_cons, e₀, Machine.run_cons, e₁, Machine.run_cons, e₂]
    exact twice_pop

end

end TimerHeap
end Unpvol1
