import Unpvol1.Lib.Machine
import Unpvol1.Timer.TwTimer

/-!
# Timer.TwRuns

Every run of a time wheel: timers added, pending timers deleted, ticks.

* `machine`    — the wheel, with a record of every callback invoked. An address may be handed out
  again after its timer is gone, so the record names timers by the serial number of their creation.
* `remaining`  — the number of ticks that pass a timer by before the one that fires it, from its
  rotation and the distance of its slot from the pointer.
* `run_pending` — what the rest of a run does to one pending timer, by induction on the run.
* `fires_once` — so a timer added with a timeout of `k` ticks fires in the `(k+1)`-th tick after it,
  once, unless it is deleted before.
-/

namespace Unpvol1
namespace TwTimer

open DList

inductive Op (κ υ : Type) where
  /-- `timer = add_timer( timeout )`, then its `cb_func` and `user_data` are set. -/
  | add (t : Nat) (timeout : Int) (cbFunc : κ) (userData : υ)
  | del (t : Nat)
  | tick

structure Event (κ υ : Type) where
  tick : Nat
  serial : Nat
  cbFunc : Option κ
  userData : Option υ

structure Run (κ υ : Type) where
  wheel : Option (TimeWheel κ υ)
  ticks : Nat
  serial : Nat → Nat
  created : Nat
  log : List (Event κ υ)

section
variable {κ υ : Type}

def setCall (cbFunc : κ) (userData : υ) (d : Timer κ υ) : Timer κ υ :=
  { d with cbFunc := some cbFunc, userData := some userData }

def add (w : TimeWheel κ υ) (t : Nat) (timeout : Int) (cbFunc : κ) (userData : υ) :
    Option (TimeWheel κ υ) := do
  let (w, timer) ← addTimer w t timeout
  if timer = none then
    some w
  else
    let m ← w.mem.setData timer (setCall cbFunc userData)
    some { w with mem := m }

def step (r : Run κ υ) : Op κ υ → Run κ υ
  | .add t timeout cbFunc userData =>
    { r with
      wheel := r.wheel.bind fun w => add w t timeout cbFunc userData
      serial := Function.update r.serial t r.created
      created := r.created + 1 }
  | .del t => { r with wheel := r.wheel.bind fun w => delTimer w (some t) }
  | .tick =>
    match r.wheel.bind tick with
    | none => { r with wheel := none }
    | some (w, called) =>
      { r with
        wheel := some w
        ticks := r.ticks + 1
        log := r.log ++ called.map fun x =>
          ⟨r.ticks + 1, r.serial x.1, x.2.cbFunc, x.2.userData⟩ }

def Pending (r : Run κ υ) (t : Nat) : Prop := ∃ w, r.wheel = some w ∧ timers w t ≠ none

/-- `new` returns an address where no timer is pending; only pending timers are deleted. -/
def Allowed (r : Run κ υ) : Op κ υ → Prop
  | .add t _ _ _ => ¬ Pending r t
  | .del t => Pending r t
  | .tick => True

def machine : Machine (Run κ υ) (Op κ υ) where
  step := step
  ok := Allowed

def start : Run κ υ where
  wheel := some init
  ticks := 0
  serial := fun _ => 0
  created := 0
  log := []

/-! ## Time to go -/

def remaining (w : TimeWheel κ υ) (d : Timer κ υ) : Nat :=
  (d.rotation * N + (d.timeSlot + N - w.curSlot) % N).toNat

theorem remaining_newTimer {w : TimeWheel κ υ} (h : IsSlot w.curSlot) {timeout : Int}
    (hto : 0 ≤ timeout) : remaining w (newTimer w timeout) = ticksOf timeout := by
  have hticks := Int.le_of_lt (ticksOf_pos hto)
  have hmod := isSlot_tmod hticks
  obtain ⟨hcur, hlt⟩ := h
  simp only [remaining, newTimer]
  rw [Int.tmod_eq_emod_of_nonneg (Int.add_nonneg hcur hmod.1), Int.tmod_eq_emod_of_nonneg hticks,
    Int.tdiv_eq_ediv_of_nonneg hticks]
  simp only [N] at hlt ⊢
  omega

/-- The tick that finds nothing left fires the timer; every other brings it one closer. -/
theorem remaining_after {w w' : TimeWheel κ υ} (h : IsSlot w.curSlot)
    (hcur : w'.curSlot = (w.curSlot + 1).tmod N) {d : Timer κ υ}
    (hd : IsSlot d.timeSlot ∧ 0 ≤ d.rotation) :
    (d.timeSlot = w.curSlot ∧ d.rotation ≤ 0 ∧ remaining w d = 0 ∧ after w.curSlot d = none) ∨
      ∃ d', after w.curSlot d = some d' ∧ remaining w d = remaining w' d' + 1 ∧
        d'.cbFunc = d.cbFunc ∧ d'.userData = d.userData := by
  rw [Int.tmod_eq_emod_of_nonneg (Int.add_nonneg h.1 (by decide))] at hcur
  simp only [remaining, IsSlot, N] at h hcur hd ⊢
  by_cases hts : d.timeSlot = w.curSlot
  · by_cases hrot : d.rotation ≤ 0
    · refine .inl ⟨hts, hrot, ?_, by rw [after, if_pos hts, if_pos hrot]⟩
      omega
    · refine .inr ⟨{ d with rotation := d.rotation - 1 },
        by rw [after, if_pos hts, if_neg hrot], ?_, rfl, rfl⟩
      simp only [hcur]
      omega
  · refine .inr ⟨d, by rw [after, if_neg hts], ?_, rfl, rfl⟩
    rw [hcur]
    omega

/-! ## The invariant -/

/-- The wheel is sound, every pending timer can be called, and the serial numbers of the pending
timers and of those already fired are all different. -/
structure Sound (r : Run κ υ) (w : TimeWheel κ υ) (L : Int → List (Nat × Timer κ υ)) : Prop where
  running : r.wheel = some w
  wheel : Wheel w L
  callable : ∀ a d, timers w a = some d → Callable d
  older : ∀ a, timers w a ≠ none → r.serial a < r.created
  distinct : ∀ a b, timers w a ≠ none → timers w b ≠ none → r.serial a = r.serial b → a = b
  logged : ∀ e ∈ r.log, e.serial < r.created ∧ ∀ a, timers w a ≠ none → r.serial a ≠ e.serial

theorem sound_start : Sound (start : Run κ υ) init fun _ => [] := by
  constructor
  · rfl
  · exact wheel_init
  all_goals simp [start, timers, init]

theorem Sound.pending {r : Run κ υ} {w : TimeWheel κ υ} {L : Int → List (Nat × Timer κ υ)}
    (h : Sound r w L) {t : Nat} : Pending r t ↔ timers w t ≠ none := by
  simp [Pending, h.running]

theorem Sound.unused {r : Run κ υ} {w : TimeWheel κ υ} {L : Int → List (Nat × Timer κ υ)}
    (h : Sound r w L) {t : Nat} (ht : ¬ Pending r t) : timers w t = none := by
  rw [h.pending] at ht
  exact not_not.mp ht

theorem setCall_wheel {w : TimeWheel κ υ} {L : Int → List (Nat × Timer κ υ)} (h : Wheel w L)
    {t : Nat} {d : Timer κ υ} (ht : timers w t = some d) (cbFunc : κ) (userData : υ) :
    ∃ m L', w.mem.setData (some t) (setCall cbFunc userData) = some m ∧
      Wheel { w with mem := m } L' ∧
      timers { w with mem := m } =
        Function.update (timers w) t (some (setCall cbFunc userData d)) := by
  obtain ⟨hts, hmem⟩ := h.mem_timers ht
  obtain ⟨l₁, l₂, hL⟩ := List.append_of_mem hmem
  obtain ⟨m, e, hseg, hf⟩ := (hL ▸ h.seg _ hts).setData (hL ▸ h.nodup _ hts)
    (setCall cbFunc userData)
  have hkeys : keys (l₁ ++ (t, setCall cbFunc userData d) :: l₂) = keys (L d.timeSlot) := by
    simp [hL]
  have hslot : first (l₁ ++ (t, setCall cbFunc userData d) :: l₂) none = w.slots d.timeSlot := by
    rw [h.slot _ hts, hL]
    simp
  have hold : ∀ x ∈ l₁ ++ (t, d) :: l₂, x.2.timeSlot = d.timeSlot ∧ 0 ≤ x.2.rotation :=
    fun x hx => ⟨h.home _ hts x (hL ▸ hx), h.turns _ hts x (hL ▸ hx)⟩
  have hfits : ∀ x ∈ l₁ ++ (t, setCall cbFunc userData d) :: l₂,
      x.2.timeSlot = d.timeSlot ∧ 0 ≤ x.2.rotation := by
    intro x hx
    simp only [List.mem_append, List.mem_cons] at hx
    rcases hx with hx | rfl | hx
    · exact hold x (by simp [hx])
    · exact hold (t, d) (by simp)
    · exact hold x (by simp [hx])
  have hw := h.replace hts hseg (hkeys ▸ h.nodup _ hts) (fun x hx => (hfits x hx).1)
    (fun x hx => (hfits x hx).2)
    (fun a ha => .inl (hkeys ▸ ha)) (fun a ha hna => absurd (hkeys ▸ ha) hna)
    (fun a ha _ => hf a fun e => ha (List.mem_map.mpr ⟨_, hmem, e.symm⟩))
  rw [hslot, Function.update_eq_self] at hw
  refine ⟨m, _, e, hw, ?_⟩
  funext a
  by_cases ha : a = t
  · subst ha
    obtain ⟨c, hc, hd⟩ := hseg.load (x := (a, setCall cbFunc userData d)) (by simp)
    simp [timers, show m a = some c from hc, hd]
  · simp [timers, ha, hf a ha]

/-- `add_timer` and setting its fields adds the one timer, which can be called. -/
theorem add_wheel {w : TimeWheel κ υ} {L : Int → List (Nat × Timer κ υ)} (h : Wheel w L) {t : Nat}
    (ht : timers w t = none) {timeout : Int} (hto : 0 ≤ timeout) (cbFunc : κ) (userData : υ) :
    ∃ w' L', add w t timeout cbFunc userData = some w' ∧ Wheel w' L' ∧ w'.curSlot = w.curSlot ∧
      timers w' = Function.update (timers w) t
        (some (setCall cbFunc userData (newTimer w timeout))) := by
  have hmem : w.mem t = none := by simpa [timers] using ht
  obtain ⟨w₁, L₁, e₁, hw₁, hcur, htim⟩ := addTimer_wheel h hmem hto
  obtain ⟨m, L', e, hw', htim'⟩ :=
    setCall_wheel hw₁ (t := t) (by rw [htim, Function.update_self]) cbFunc userData
  refine ⟨_, L', by simp [add, e₁, e], hw', hcur, ?_⟩
  rw [htim', htim, Function.update_idem]

section
variable {r : Run κ υ} {w : TimeWheel κ υ} {L : Int → List (Nat × Timer κ υ)}

/-- An addition, also one that is refused, concerns its own timer alone. -/
theorem add_effect (h : Wheel w L) {t : Nat} (ht : timers w t = none) (timeout : Int) (cbFunc : κ)
    (userData : υ) :
    ∃ w' L', add w t timeout cbFunc userData = some w' ∧ Wheel w' L' ∧ w'.curSlot = w.curSlot ∧
      (∀ a, a ≠ t → timers w' a = timers w a) ∧
      (0 ≤ timeout → timers w' t = some (setCall cbFunc userData (newTimer w timeout))) ∧
      ∀ d, timers w' t = some d → Callable d := by
  by_cases hto : 0 ≤ timeout
  · obtain ⟨w', L', e, hw', hcur, htim⟩ := add_wheel h ht hto cbFunc userData
    refine ⟨w', L', e, hw', hcur, ?_, ?_, ?_⟩
    · intro a ha
      rw [htim, Function.update_of_ne ha]
    · intro _
      rw [htim, Function.update_self]
    · intro d hd
      rw [htim, Function.update_self] at hd
      rw [← Option.some.inj hd]
      exact ⟨rfl, rfl⟩
  · have hneg : timeout < 0 := by omega
    refine ⟨w, L, by simp [add, addTimer, hneg], h, rfl, fun _ _ => rfl,
      fun h => absurd h hto, ?_⟩
    intro d hd
    rw [ht] at hd
    cases hd

theorem sound_add (h : Sound r w L) {t : Nat} (ht : timers w t = none) (timeout : Int)
    (cbFunc : κ) (userData : υ) :
    ∃ w' L', Sound (machine.step r (.add t timeout cbFunc userData)) w' L' ∧
      w'.curSlot = w.curSlot ∧ (∀ a, a ≠ t → timers w' a = timers w a) ∧
      (0 ≤ timeout → timers w' t = some (setCall cbFunc userData (newTimer w timeout))) := by
  obtain ⟨w', L', e, hw', hcur, hother, hself, hcall⟩ :=
    add_effect h.wheel ht timeout cbFunc userData
  refine ⟨w', L', ⟨?_, hw', ?_, ?_, ?_, ?_⟩, hcur, hother, hself⟩
  · simp [machine, step, h.running, e]
  · intro a d hd
    by_cases ha : a = t
    · exact hcall d (ha ▸ hd)
    · exact h.callable a d (hother a ha ▸ hd)
  · intro a hd
    by_cases ha : a = t
    · subst ha
      simp [machine, step]
    · have := h.older a (hother a ha ▸ hd)
      simp only [machine, step, Function.update_of_ne ha]
      omega
  · intro a b hd hb
    by_cases ha : a = t
    · by_cases hbt : b = t
      · intro _
        rw [ha, hbt]
      · have := h.older b (hother b hbt ▸ hb)
        subst ha
        simp only [machine, step, Function.update_self, Function.update_of_ne hbt]
        omega
    · by_cases hbt : b = t
      · have := h.older a (hother a ha ▸ hd)
        subst hbt
        simp only [machine, step, Function.update_self, Function.update_of_ne ha]
        omega
      · simp only [machine, step, Function.update_of_ne ha, Function.update_of_ne hbt]
        exact h.distinct a b (hother a ha ▸ hd) (hother b hbt ▸ hb)
  · intro e he
    obtain ⟨hlt, hne⟩ := h.logged e he
    refine ⟨Nat.lt_succ_of_lt hlt, ?_⟩
    intro a hd
    by_cases ha : a = t
    · subst ha
      simp only [machine, step, Function.update_self]
      omega
    · simp only [machine, step, Function.update_of_ne ha]
      exact hne a (hother a ha ▸ hd)

/-- Where every timer that is pending after an operation was pending before under the same serial
number, the numbers stay different. -/
theorem Sound.shrink (h : Sound r w L) {r' : Run κ υ} {w' : TimeWheel κ υ}
    {L' : Int → List (Nat × Timer κ υ)} (hrun : r'.wheel = some w') (hw' : Wheel w' L')
    (hserial : r'.serial = r.serial) (hcreated : r'.created = r.created)
    (hsub : ∀ a d, timers w' a = some d →
      ∃ d₀, timers w a = some d₀ ∧ d.cbFunc = d₀.cbFunc ∧ d.userData = d₀.userData)
    (hlog : ∀ e ∈ r'.log, e.serial < r.created ∧
      ∀ a, timers w' a ≠ none → r.serial a ≠ e.serial) : Sound r' w' L' := by
  have hlive : ∀ a, timers w' a ≠ none → timers w a ≠ none := by
    intro a ha
    obtain ⟨d, hd⟩ := Option.ne_none_iff_exists'.mp ha
    obtain ⟨d₀, hd₀, -⟩ := hsub a d hd
    simp [hd₀]
  refine ⟨hrun, hw', ?_, ?_, ?_, ?_⟩
  · intro a d hd
    obtain ⟨d₀, hd₀, hc, hu⟩ := hsub a d hd
    have := h.callable a d₀ hd₀
    exact ⟨hc ▸ this.1, hu ▸ this.2⟩
  · intro a ha
    rw [hserial, hcreated]
    exact h.older a (hlive a ha)
  · intro a b ha hb
    rw [hserial]
    exact h.distinct a b (hlive a ha) (hlive b hb)
  · rw [hserial, hcreated]
    exact hlog

theorem sound_del (h : Sound r w L) {t : Nat} (ht : timers w t ≠ none) :
    ∃ w' L', Sound (machine.step r (.del t)) w' L' ∧ w'.curSlot = w.curSlot ∧
      timers w' = Function.update (timers w) t none := by
  obtain ⟨d, hd⟩ := Option.ne_none_iff_exists'.mp ht
  obtain ⟨w', L', e, hw', hcur, htim⟩ := delTimer_wheel h.wheel hd
  have hsub : ∀ a d, timers w' a = some d → timers w a = some d := by
    intro a d' hd'
    rw [htim] at hd'
    by_cases ha : a = t
    · simp [ha] at hd'
    · rwa [Function.update_of_ne ha] at hd'
  have hrun : (machine.step r (.del t)).wheel = some w' := by
    simp [machine, step, h.running, e]
  refine ⟨w', L', h.shrink hrun hw' rfl rfl ?_ ?_, hcur, htim⟩
  · intro a d hd
    exact ⟨d, hsub a d hd, rfl, rfl⟩
  · intro e he
    refine ⟨(h.logged e he).1, fun a ha => (h.logged e he).2 a ?_⟩
    obtain ⟨d, hd⟩ := Option.ne_none_iff_exists'.mp ha
    simp [hsub a d hd]

theorem sound_tick (h : Sound r w L) :
    ∃ w' L' called, Sound (machine.step r .tick) w' L' ∧ w'.curSlot = (w.curSlot + 1).tmod N ∧
      (∀ a, timers w' a = (timers w a).bind (after w.curSlot)) ∧
      (∀ a d, (a, d) ∈ called ↔
        timers w a = some d ∧ d.timeSlot = w.curSlot ∧ d.rotation ≤ 0) ∧
      (keys called).Nodup ∧
      machine.step r .tick =
        { r with
          wheel := some w'
          ticks := r.ticks + 1
          log := r.log ++ called.map fun x =>
            ⟨r.ticks + 1, r.serial x.1, x.2.cbFunc, x.2.userData⟩ } := by
  obtain ⟨w', L', called, e, hw', hcur, htim, hcalled, hnd⟩ := tick_wheel h.wheel h.callable
  have hstep : machine.step r .tick =
      { r with
        wheel := some w'
        ticks := r.ticks + 1
        log := r.log ++ called.map fun x =>
          ⟨r.ticks + 1, r.serial x.1, x.2.cbFunc, x.2.userData⟩ } := by
    simp [machine, step, h.running, e]
  refine ⟨w', L', called, ?_, hcur, htim, hcalled, hnd, hstep⟩
  rw [hstep]
  have hsub : ∀ a d, timers w' a = some d → ∃ d₀, timers w a = some d₀ ∧
      after w.curSlot d₀ = some d := by
    intro a d hd
    exact Option.bind_eq_some_iff.mp ((htim a).symm.trans hd)
  refine h.shrink rfl hw' rfl rfl ?_ ?_
  · intro a d hd
    obtain ⟨d₀, hd₀, haft⟩ := hsub a d hd
    refine ⟨d₀, hd₀, ?_⟩
    obtain ⟨-, -, -, hnone⟩ | ⟨d', haft', -, hc, hu⟩ :=
      remaining_after h.wheel.cur hcur (h.wheel.fits hd₀)
    · rw [hnone] at haft
      cases haft
    · rw [haft'] at haft
      cases haft
      exact ⟨hc, hu⟩
  · intro e he
    have hpend : ∀ a, timers w' a ≠ none → timers w a ≠ none := by
      intro a ha
      obtain ⟨d, hd⟩ := Option.ne_none_iff_exists'.mp ha
      obtain ⟨d₀, hd₀, -⟩ := hsub a d hd
      simp [hd₀]
    rcases List.mem_append.mp he with he | he
    · exact ⟨(h.logged e he).1, fun a ha => (h.logged e he).2 a (hpend a ha)⟩
    · obtain ⟨⟨b, db⟩, hb, rfl⟩ := List.mem_map.mp he
      obtain ⟨hdb, hts, hrot⟩ := (hcalled b db).mp hb
      have hbl : timers w b ≠ none := by simp [hdb]
      refine ⟨h.older b hbl, ?_⟩
      intro a ha hab
      -- the timer that was called is gone
      have : a = b := h.distinct a b (hpend a ha) hbl hab
      subst this
      exact ha (by simp [htim, hdb, after, hts, hrot])

end

/-! ## One timer through a run -/

def isTick : Op κ υ → Bool
  | .tick => true
  | _ => false

def isDel (t : Nat) : Op κ υ → Bool
  | .del t' => t' == t
  | _ => false

def ticksIn (ops : List (Op κ υ)) : Nat := ops.countP isTick

def deletes (t : Nat) (ops : List (Op κ υ)) : Bool := ops.any (isDel t)

/-- The operations before the `(k+1)`-th tick. -/
def beforeTick : Nat → List (Op κ υ) → List (Op κ υ)
  | _, [] => []
  | 0, .tick :: _ => []
  | k + 1, .tick :: ops => .tick :: beforeTick k ops
  | k, op :: ops => op :: beforeTick k ops

def eventsOf (serial : Nat) (r : Run κ υ) : List (Event κ υ) :=
  r.log.filter fun e => e.serial = serial

/-- What is recorded, in the end, of a timer with `k` ticks to go: one event in the `(k+1)`-th tick,
unless the timer is deleted before or the run ends before. -/
def fate (r : Run κ υ) (t k : Nat) (d : Timer κ υ) (ops : List (Op κ υ)) : List (Event κ υ) :=
  if deletes t (beforeTick k ops) = true then
    []
  else if k < ticksIn ops then
    [⟨r.ticks + k + 1, r.serial t, d.cbFunc, d.userData⟩]
  else
    []

/-- A step keeps what is recorded of timers that are gone. -/
theorem run_gone {r : Run κ υ} {w : TimeWheel κ υ} {L : Int → List (Nat × Timer κ υ)}
    (h : Sound r w L) {ops : List (Op κ υ)} (hv : machine.Valid r ops) {n : Nat}
    (hn : n < r.created) (hgone : ∀ a, timers w a ≠ none → r.serial a ≠ n) :
    eventsOf n (machine.run r ops) = eventsOf n r := by
  induction ops generalizing r w L with
  | nil => rfl
  | cons op ops ih =>
    rw [Machine.run_cons]
    cases op with
    | add t timeout cbFunc userData =>
      have ht : timers w t = none := h.unused hv.1
      obtain ⟨w', L', hs, -, hother, -⟩ := sound_add h ht timeout cbFunc userData
      refine ih hs hv.2 (Nat.lt_succ_of_lt hn) ?_
      intro a ha
      by_cases hat : a = t
      · subst hat
        simp only [machine, step, Function.update_self]
        omega
      · simp only [machine, step, Function.update_of_ne hat]
        exact hgone a (hother a hat ▸ ha)
    | del t =>
      obtain ⟨w', L', hs, -, htim⟩ := sound_del h (h.pending.mp hv.1)
      refine ih hs hv.2 hn ?_
      intro a ha
      refine hgone a ?_
      rw [htim] at ha
      by_cases hat : a = t
      · simp [hat] at ha
      · rwa [Function.update_of_ne hat] at ha
    | tick =>
      obtain ⟨w', L', called, hs, -, htim, hcalled, -, hstep⟩ := sound_tick h
      have hpend : ∀ a, timers w' a ≠ none → timers w a ≠ none := by
        intro a ha hnone
        exact ha (by rw [htim, hnone]; rfl)
      have hnew : (called.map fun x => (⟨r.ticks + 1, r.serial x.1, x.2.cbFunc, x.2.userData⟩ :
          Event κ υ)).filter (fun e => e.serial = n) = [] := by
        refine List.filter_eq_nil_iff.mpr ?_
        intro e he
        obtain ⟨⟨a, d⟩, ha, rfl⟩ := List.mem_map.mp he
        have := hgone a (by simp [((hcalled a d).mp ha).1])
        simpa using this
      rw [ih hs hv.2 (by rw [hstep]; exact hn) (by
        intro a ha
        rw [hstep]
        exact hgone a (hpend a ha)), hstep]
      simp only [eventsOf, List.filter_append, hnew, List.append_nil]

theorem beforeTick_skip {op : Op κ υ} (k : Nat) (ops : List (Op κ υ)) (h : isTick op = false) :
    beforeTick k (op :: ops) = op :: beforeTick k ops := by
  cases op with
  | tick => cases h
  | _ => cases k <;> rfl

@[simp] theorem ticksIn_cons (op : Op κ υ) (ops : List (Op κ υ)) :
    ticksIn (op :: ops) = ticksIn ops + if isTick op then 1 else 0 := by
  simp [ticksIn, List.countP_cons]

@[simp] theorem deletes_cons (t : Nat) (op : Op κ υ) (ops : List (Op κ υ)) :
    deletes t (op :: ops) = (isDel t op || deletes t ops) := rfl

theorem fate_skip (r : Run κ υ) (t k : Nat) (d : Timer κ υ) {op : Op κ υ} (ops : List (Op κ υ))
    (hop : isTick op = false) (hdel : isDel t op = false) :
    fate r t k d (op :: ops) = fate r t k d ops := by
  simp [fate, beforeTick_skip k ops hop, hop, hdel]

theorem fate_tick {r r' : Run κ υ} {t k : Nat} {d d' : Timer κ υ} (ops : List (Op κ υ))
    (hticks : r'.ticks = r.ticks + 1) (hserial : r'.serial = r.serial)
    (hcb : d'.cbFunc = d.cbFunc) (hud : d'.userData = d.userData) :
    fate r t (k + 1) d (.tick :: ops) = fate r' t k d' ops := by
  have hnum : r.ticks + (k + 1) + 1 = r.ticks + 1 + k + 1 := by omega
  simp [fate, beforeTick, isTick, isDel, hticks, hserial, hcb, hud, hnum]

theorem eventsOf_pending {r : Run κ υ} {w : TimeWheel κ υ} {L : Int → List (Nat × Timer κ υ)}
    (h : Sound r w L) {t : Nat} (ht : timers w t ≠ none) : eventsOf (r.serial t) r = [] := by
  refine List.filter_eq_nil_iff.mpr ?_
  intro e he
  simpa using ((h.logged e he).2 t ht).symm

/-- Among the timers one tick calls, one has the serial number of a pending timer it calls. -/
theorem filter_called {r : Run κ υ} {w : TimeWheel κ υ} {L : Int → List (Nat × Timer κ υ)}
    (h : Sound r w L) {t : Nat} {d : Timer κ υ} (ht : timers w t ≠ none)
    {called : List (Nat × Timer κ υ)} (hmem : (t, d) ∈ called) (hnd : (keys called).Nodup)
    (hlive : ∀ a d, (a, d) ∈ called → timers w a ≠ none) :
    (called.map fun x => (⟨r.ticks + 1, r.serial x.1, x.2.cbFunc, x.2.userData⟩ :
        Event κ υ)).filter (fun e => e.serial = r.serial t) =
      [⟨r.ticks + 1, r.serial t, d.cbFunc, d.userData⟩] := by
  obtain ⟨l₁, l₂, rfl⟩ := List.append_of_mem hmem
  obtain ⟨h₁, h₂⟩ := ne_of_nodup hnd
  have hnil : ∀ l : List (Nat × Timer κ υ), (∀ x ∈ l, x ∈ l₁ ++ (t, d) :: l₂) →
      (∀ x ∈ l, x.1 ≠ t) →
      (l.map fun x => (⟨r.ticks + 1, r.serial x.1, x.2.cbFunc, x.2.userData⟩ :
        Event κ υ)).filter (fun e => e.serial = r.serial t) = [] := by
    intro l hsub hne
    refine List.filter_eq_nil_iff.mpr ?_
    intro e he
    obtain ⟨x, hx, rfl⟩ := List.mem_map.mp he
    simpa using fun e => hne x hx (h.distinct x.1 t (hlive x.1 x.2 (hsub x hx)) ht e)
  rw [List.map_append, List.filter_append, List.map_cons, List.filter_cons_of_pos (by simp),
    hnil l₁ (fun x hx => by simp [hx]) h₁, hnil l₂ (fun x hx => by simp [hx]) h₂]
  rfl

theorem fate_del (r : Run κ υ) (t k : Nat) (d : Timer κ υ) (ops : List (Op κ υ)) :
    fate r t k d (.del t :: ops) = [] := by
  rw [fate, beforeTick_skip k ops rfl]
  simp [isDel]

theorem fate_fire (r : Run κ υ) (t : Nat) (d : Timer κ υ) (ops : List (Op κ υ)) :
    fate r t 0 d (.tick :: ops) = [⟨r.ticks + 1, r.serial t, d.cbFunc, d.userData⟩] := by
  simp [fate, beforeTick, deletes, isTick]

/-- A timer that is pending no longer leaves its serial number to none that is. -/
theorem Sound.gone {r : Run κ υ} {w w' : TimeWheel κ υ} {L : Int → List (Nat × Timer κ υ)}
    (h : Sound r w L) {t : Nat} (ht : timers w t ≠ none) (hnone : timers w' t = none)
    (hsub : ∀ a, timers w' a ≠ none → timers w a ≠ none) :
    ∀ a, timers w' a ≠ none → r.serial a ≠ r.serial t := by
  intro a ha e
  exact ha (h.distinct a t (hsub a ha) ht e ▸ hnone)

/-- What the rest of a run records of a pending timer, by induction on the run. -/
theorem run_pending {r : Run κ υ} {w : TimeWheel κ υ} {L : Int → List (Nat × Timer κ υ)}
    (h : Sound r w L) {ops : List (Op κ υ)} (hv : machine.Valid r ops) {t : Nat} {d : Timer κ υ}
    (ht : timers w t = some d) :
    eventsOf (r.serial t) (machine.run r ops) = fate r t (remaining w d) d ops := by
  have hlive : timers w t ≠ none := by simp [ht]
  induction ops generalizing r w L d with
  | nil => simpa [fate, ticksIn, beforeTick, deletes] using eventsOf_pending h hlive
  | cons op ops ih =>
    rw [Machine.run_cons]
    cases op with
    | add t' timeout cbFunc userData =>
      have ht' : timers w t' = none := h.unused hv.1
      have hne : t ≠ t' := by
        intro e
        rw [e, ht'] at ht
        cases ht
      obtain ⟨w', L', hs, hcur, hother, -⟩ := sound_add h ht' timeout cbFunc userData
      have hser : (machine.step r (.add t' timeout cbFunc userData)).serial t = r.serial t := by
        simp [machine, step, hne]
      have hrem : remaining w' d = remaining w d := by simp [remaining, hcur]
      have hd : timers w' t = some d := (hother t hne).trans ht
      have := ih hs hv.2 hd (by simp [hd])
      rw [hser, hrem] at this
      rw [this, fate_skip _ _ _ _ _ rfl rfl]
      simp [fate, machine, step, hne]
    | del t' =>
      obtain ⟨w', L', hs, hcur, htim⟩ := sound_del h (h.pending.mp hv.1)
      by_cases hne : t' = t
      · subst hne
        have hothers := h.gone hlive (by rw [htim, Function.update_self]) fun a ha => by
          rw [htim] at ha
          by_cases hat : a = t'
          · simp [hat] at ha
          · rwa [Function.update_of_ne hat] at ha
        rw [fate_del, run_gone hs hv.2 (h.older t' hlive) hothers]
        exact eventsOf_pending h hlive
      · have hd : timers w' t = some d := by rw [htim, Function.update_of_ne (Ne.symm hne), ht]
        have hrem : remaining w' d = remaining w d := by simp [remaining, hcur]
        have := ih hs hv.2 hd (by simp [hd])
        rw [hrem] at this
        rw [fate_skip _ _ _ _ _ rfl (by simp [isDel, hne])]
        exact this
    | tick =>
      obtain ⟨w', L', called, hs, hcur, htim, hcalled, hnd, hstep⟩ := sound_tick h
      have hser : (machine.step r .tick).serial = r.serial := by rw [hstep]
      obtain ⟨hts, hrot, hrem, hgone⟩ | ⟨d', haft, hrem, hcb, hud⟩ :=
        remaining_after h.wheel.cur hcur (h.wheel.fits ht)
      · -- this tick fires the timer
        have hnone : timers w' t = none := by rw [htim, ht]; exact hgone
        have hothers := h.gone hlive hnone fun a ha hw => ha (by rw [htim, hw]; rfl)
        have hrun := run_gone hs hv.2 (by rw [hstep]; exact h.older t hlive)
          (by rw [hser]; exact hothers)
        rw [hrun, hstep, eventsOf, List.filter_append,
          show r.log.filter _ = [] from eventsOf_pending h hlive, List.nil_append,
          filter_called h hlive ((hcalled t d).mpr ⟨ht, hts, hrot⟩) hnd
            (fun a d hmem => by simp [((hcalled a d).mp hmem).1])]
        rw [hrem, fate_fire]
      · have hd : timers w' t = some d' := by rw [htim, ht]; exact haft
        have := ih hs hv.2 hd (by simp [hd])
        rw [hser] at this
        rw [this, hrem]
        exact (fate_tick ops (by rw [hstep]) hser hcb hud).symm

theorem sound_step {r : Run κ υ} {op : Op κ υ} (h : ∃ w L, Sound r w L) (hok : machine.ok r op) :
    ∃ w L, Sound (machine.step r op) w L := by
  obtain ⟨w, L, h⟩ := h
  cases op with
  | add t timeout cbFunc userData =>
    obtain ⟨w', L', hs, -⟩ := sound_add h (h.unused hok) timeout cbFunc userData
    exact ⟨w', L', hs⟩
  | del t =>
    obtain ⟨w', L', hs, -⟩ := sound_del h (h.pending.mp hok)
    exact ⟨w', L', hs⟩
  | tick =>
    obtain ⟨w', L', -, hs, -⟩ := sound_tick h
    exact ⟨w', L', hs⟩

/-- Whatever happened before (`ops₀`) and happens after (`ops`): a timer added with a timeout of
`k` ticks is invoked, with its own callback and argument, once, in the `(k+1)`-th tick after it was
added, unless it is deleted before that tick; then it is never invoked. -/
theorem fires_once (ops₀ ops : List (Op κ υ)) (t : Nat) (timeout : Int) (cbFunc : κ) (userData : υ)
    (hto : 0 ≤ timeout)
    (hv : machine.Valid start (ops₀ ++ .add t timeout cbFunc userData :: ops)) :
    let r := machine.run start ops₀
    let r' := machine.run start (ops₀ ++ .add t timeout cbFunc userData :: ops)
    let k := (max 1 (timeout / TI)).toNat
    (∃ w, r'.wheel = some w) ∧
      eventsOf r.created r' =
        if deletes t (beforeTick k ops) = true then []
        else if k < ticksIn ops then [⟨r.ticks + k + 1, r.created, some cbFunc, some userData⟩]
        else [] := by
  intro r r' k
  obtain ⟨hv₀, hok, hv₁⟩ := Machine.valid_append.mp hv
  obtain ⟨w, L, hs⟩ : ∃ w L, Sound r w L :=
    Machine.run_inv (fun _ _ => sound_step) ⟨init, _, sound_start⟩ hv₀
  obtain ⟨w', L', hs', hcur, -, hnew⟩ := sound_add hs (hs.unused hok) timeout cbFunc userData
  have hr' : r' = machine.run (machine.step r (.add t timeout cbFunc userData)) ops := by
    rw [show r' = _ from Machine.run_append start ops₀ _]
    rfl
  constructor
  · obtain ⟨w'', L'', hs''⟩ := Machine.run_inv (fun _ _ => sound_step) ⟨w', L', hs'⟩ hv₁
    exact ⟨w'', hr' ▸ hs''.running⟩
  · have hser : (machine.step r (.add t timeout cbFunc userData)).serial t = r.created := by
      simp [machine, step]
    have hrem : remaining w' (setCall cbFunc userData (newTimer w timeout)) = k := by
      have hk : (k : Int) = ticksOf timeout := by
        have := ticksOf_eq hto
        omega
      rw [← remaining_newTimer hs.wheel.cur hto] at hk
      rw [Int.ofNat.inj hk]
      simp [remaining, setCall, hcur]
    have hrun := run_pending hs' hv₁ (hnew hto)
    rw [hser, hrem, ← hr'] at hrun
    rw [hrun]
    simp [fate, machine, step, setCall]

/-- Beside an older timer, one added for two ticks fires in the third. -/
theorem fires_once_run :
    eventsOf 1 (machine.run start
      ([.add 3 1 "a" 0] ++ .add 7 2 "b" 1 :: [.tick, .tick, .tick, .tick])) =
      [⟨3, 1, some "b", some 1⟩] := by
  refine (fires_once [.add 3 1 "a" 0] [.tick, .tick, .tick, .tick] 7 2 "b" 1 (by decide) ?_).2
  refine ⟨?_, ?_, trivial, trivial, trivial, trivial, trivial⟩
  · intro ⟨w, hw, ht⟩
    cases hw
    exact ht rfl
  · intro ⟨w, hw, ht⟩
    cases hw
    exact ht rfl

end

end TwTimer
end Unpvol1
