import Unpvol1.Lib.DList
import Unpvol1.Lib.Loop

/-!
# Timer.TwTimer

The time wheel (`time_wheel`): `N` slots, each a doubly linked list of timers, and a pointer that
`tick` moves one slot on. A timer stays where it is until the pointer has passed it `rotation`
times.

* `Wheel w L` — slot `i` of `w` holds the timers `L i`, and no timer is elsewhere.
* `timers w`  — the timer at an address, which is all a caller can tell of the wheel.
* `addTimer_wheel`, `delTimer_wheel`, `tick_wheel` — the operations in these terms.
-/

namespace Unpvol1
namespace TwTimer

open DList Loop

/-- `time_wheel::N` and `time_wheel::TI`. -/
def N : Int := 60
def TI : Int := 1

/-- The fields of `tw_timer` besides its two links. The constructor leaves the last two unset. -/
structure Timer (κ υ : Type) where
  rotation : Int
  timeSlot : Int
  cbFunc : Option κ
  userData : Option υ

structure TimeWheel (κ υ : Type) where
  slots : Int → Ptr
  curSlot : Int
  mem : Cells (Timer κ υ)

section
variable {κ υ : Type}

def init : TimeWheel κ υ where
  slots := fun _ => none
  curSlot := 0
  mem := fun _ => none

/-- The number of ticks a timeout amounts to. -/
def ticksOf (timeout : Int) : Int := if timeout < TI then 1 else timeout.tdiv TI

/-- `new tw_timer( rotation, ts )` in `add_timer`. -/
def newTimer (w : TimeWheel κ υ) (timeout : Int) : Timer κ υ where
  rotation := (ticksOf timeout).tdiv N
  timeSlot := (w.curSlot + (ticksOf timeout).tmod N).tmod N
  cbFunc := none
  userData := none

/-- The new timer `d` at the address `t` becomes the first of its slot. -/
def link (w : TimeWheel κ υ) (t : Nat) (d : Timer κ υ) : Option (TimeWheel κ υ) := do
  let ts := d.timeSlot
  let m := w.mem.alloc t d
  if w.slots ts = none then
    some { w with mem := m, slots := Function.update w.slots ts (some t) }
  else
    let m ← m.setNext (some t) (w.slots ts)
    let m ← m.setPrev (w.slots ts) (some t)
    some { w with mem := m, slots := Function.update w.slots ts (some t) }

/-- `add_timer`, where `new` returns the address `t`. -/
def addTimer (w : TimeWheel κ υ) (t : Nat) (timeout : Int) : Option (TimeWheel κ υ × Ptr) :=
  if timeout < 0 then
    some (w, none)
  else
    (link w t (newTimer w timeout)).map fun w => (w, some t)

def delTimer (w : TimeWheel κ υ) (timer : Ptr) : Option (TimeWheel κ υ) := do
  if timer = none then
    some w
  else
    let t ← w.mem.load timer
    let ts := t.data.timeSlot
    if timer = w.slots ts then
      let h ← w.mem.load (w.slots ts)
      let head := h.next
      let m ← w.mem.setPrevIf head none
      let m ← m.free timer
      some { w with mem := m, slots := Function.update w.slots ts head }
    else
      let m ← w.mem.setNext t.prev t.next
      let m ← m.setPrevIf t.next t.prev
      let m ← m.free timer
      some { w with mem := m }

/-- One turn of the loop of `tick`; `tickLoop` is the loop from the next turn on. -/
def tickIter (tickLoop : TimeWheel κ υ → Ptr → Option (TimeWheel κ υ × List (Nat × Timer κ υ)))
    (w : TimeWheel κ υ) (tmp : Ptr) : Option (TimeWheel κ υ × List (Nat × Timer κ υ)) := do
  match tmp with
  | none => some (w, [])
  | some a =>
    let t ← w.mem.load tmp
    if t.data.rotation > 0 then
      let m ← w.mem.setData tmp fun d => { d with rotation := d.rotation - 1 }
      tickLoop { w with mem := m } t.next
    else
      let _ ← t.data.cbFunc
      let _ ← t.data.userData
      if tmp = w.slots w.curSlot then
        let m ← w.mem.free tmp
        let m ← m.setPrevIf t.next none
        let (w, called) ← tickLoop
          { w with mem := m, slots := Function.update w.slots w.curSlot t.next } t.next
        some (w, (a, t.data) :: called)
      else
        let m ← w.mem.setNext t.prev t.next
        let m ← m.setPrevIf t.next t.prev
        let m ← m.free tmp
        let (w, called) ← tickLoop { w with mem := m } t.next
        some (w, (a, t.data) :: called)

def tickBody : Body (TimeWheel κ υ) Ptr (TimeWheel κ υ × List (Nat × Timer κ υ)) where
  iter := tickIter
  mono f g h w tmp := by
    unfold tickIter
    cases tmp with
    | none => exact .refl _
    | some a =>
      refine .bind _ fun t => .ite (.bind _ fun m => h _ _) ?_
      refine .bind _ fun _ => .bind _ fun _ => .ite ?_ ?_
      · exact .bind _ fun m => .bind _ fun m => .bind_rest (h _ _) _
      · exact .bind _ fun m => .bind _ fun m => .bind _ fun m => .bind_rest (h _ _) _

/-- The loop of `tick`, with the timers whose `cb_func( user_data )` it calls, in order. -/
def tickLoop (w : TimeWheel κ υ) (tmp : Ptr) :
    Option (TimeWheel κ υ × List (Nat × Timer κ υ)) :=
  tickBody.run w tmp

theorem tickLoop_turn (w : TimeWheel κ υ) (tmp : Ptr) :
    tickLoop w tmp = tickIter tickLoop w tmp :=
  tickBody.run_eq w tmp

def tick (w : TimeWheel κ υ) : Option (TimeWheel κ υ × List (Nat × Timer κ υ)) := do
  let (w, called) ← tickLoop w (w.slots w.curSlot)
  some ({ w with curSlot := (w.curSlot + 1).tmod N }, called)

/-! ## The timers a wheel holds -/

/-- An index of `slots`. -/
def IsSlot (i : Int) : Prop := 0 ≤ i ∧ i < N

structure Wheel (w : TimeWheel κ υ) (L : Int → List (Nat × Timer κ υ)) : Prop where
  cur : IsSlot w.curSlot
  slot : ∀ i, IsSlot i → w.slots i = first (L i) none
  seg : ∀ i, IsSlot i → Seg w.mem none (L i) none
  nodup : ∀ i, IsSlot i → (keys (L i)).Nodup
  home : ∀ i, IsSlot i → ∀ x ∈ L i, x.2.timeSlot = i
  turns : ∀ i, IsSlot i → ∀ x ∈ L i, 0 ≤ x.2.rotation
  all : ∀ a c, w.mem a = some c → IsSlot c.data.timeSlot ∧ (a, c.data) ∈ L c.data.timeSlot

/-- The timer at an address. -/
def timers (w : TimeWheel κ υ) (a : Nat) : Option (Timer κ υ) := (w.mem a).map Cell.data

theorem wheel_init : Wheel (init : TimeWheel κ υ) fun _ => [] := by
  constructor <;> simp [init, IsSlot, N]

section
variable {w : TimeWheel κ υ} {L : Int → List (Nat × Timer κ υ)}

theorem Wheel.timers_mem (h : Wheel w L) {i : Int} (hi : IsSlot i) {x : Nat × Timer κ υ}
    (hx : x ∈ L i) : timers w x.1 = some x.2 := by
  obtain ⟨c, hc, hd⟩ := (h.seg i hi).load hx
  simp [timers, hc, hd]

theorem Wheel.mem_timers (h : Wheel w L) {a : Nat} {d : Timer κ υ} (ha : timers w a = some d) :
    IsSlot d.timeSlot ∧ (a, d) ∈ L d.timeSlot := by
  obtain ⟨c, hc, rfl⟩ := Option.map_eq_some_iff.mp ha
  exact h.all a c hc

/-- A timer has a slot, and revolutions that are not negative. -/
theorem Wheel.fits (h : Wheel w L) {a : Nat} {d : Timer κ υ} (ha : timers w a = some d) :
    IsSlot d.timeSlot ∧ 0 ≤ d.rotation := by
  obtain ⟨hts, hmem⟩ := h.mem_timers ha
  exact ⟨hts, h.turns _ hts _ hmem⟩

/-- An address is in one slot only. -/
theorem Wheel.slot_unique (h : Wheel w L) {i j : Int} {a : Nat} (hi : IsSlot i) (hj : IsSlot j)
    (hai : a ∈ keys (L i)) (haj : a ∈ keys (L j)) : i = j := by
  obtain ⟨x, hx, rfl⟩ := List.mem_map.mp hai
  obtain ⟨y, hy, hyx⟩ := List.mem_map.mp haj
  have hxd := h.timers_mem hi hx
  have hyd := h.timers_mem hj hy
  rw [hyx, hxd] at hyd
  rw [← h.home i hi x hx, ← h.home j hj y hy, Option.some.inj hyd]

/-- An operation that rewrites the list of one slot and leaves the other cells alone. -/
theorem Wheel.replace (h : Wheel w L) {ts : Int} (hts : IsSlot ts) {m : Cells (Timer κ υ)}
    {l : List (Nat × Timer κ υ)} (hseg : Seg m none l none) (hnodup : (keys l).Nodup)
    (hhome : ∀ x ∈ l, x.2.timeSlot = ts) (hturns : ∀ x ∈ l, 0 ≤ x.2.rotation)
    (hnew : ∀ a ∈ keys l, a ∈ keys (L ts) ∨ w.mem a = none)
    (hgone : ∀ a ∈ keys (L ts), a ∉ keys l → m a = none)
    (hframe : ∀ a, a ∉ keys (L ts) → a ∉ keys l → m a = w.mem a) :
    Wheel { w with mem := m, slots := Function.update w.slots ts (first l none) }
      (Function.update L ts l) := by
  constructor
  · exact h.cur
  · intro i hi
    by_cases he : i = ts
    · subst he
      simp
    · simp [he, h.slot i hi]
  · intro i hi
    by_cases he : i = ts
    · subst he
      simpa using hseg
    · simp only [Function.update_of_ne he]
      refine (h.seg i hi).frame ?_
      intro a ha
      refine hframe a (fun hat => he (h.slot_unique hi hts ha hat)) ?_
      intro hal
      rcases hnew a hal with hat | hnone
      · exact he (h.slot_unique hi hts ha hat)
      · exact (h.seg i hi).live ha hnone
  · intro i hi
    by_cases he : i = ts
    · subst he
      simpa using hnodup
    · simpa [he] using h.nodup i hi
  · intro i hi
    by_cases he : i = ts
    · subst he
      simpa using hhome
    · simpa [he] using h.home i hi
  · intro i hi
    by_cases he : i = ts
    · subst he
      simpa using hturns
    · simpa [he] using h.turns i hi
  · intro a c hc
    by_cases hal : a ∈ keys l
    · obtain ⟨x, hx, rfl⟩ := List.mem_map.mp hal
      obtain ⟨c', hc', hd⟩ := hseg.load hx
      obtain rfl : c' = c := Option.some.inj (hc'.symm.trans hc)
      rw [hd, hhome x hx]
      exact ⟨hts, by simpa using hx⟩
    · by_cases hat : a ∈ keys (L ts)
      · simp [hgone a hat hal] at hc
      · have hw : w.mem a = some c := (hframe a hat hal).symm.trans hc
        obtain ⟨hlt, hmem⟩ := h.all a c hw
        have hne : c.data.timeSlot ≠ ts := by
          intro he
          rw [he] at hmem
          exact hat (List.mem_map_of_mem hmem)
        exact ⟨hlt, by simpa [hne] using hmem⟩

theorem Wheel.timers_iff (h : Wheel w L) {a : Nat} {d : Timer κ υ} :
    timers w a = some d ↔ IsSlot d.timeSlot ∧ (a, d) ∈ L d.timeSlot :=
  ⟨h.mem_timers, fun hd => h.timers_mem hd.1 hd.2⟩

theorem Wheel.mem_slot (h : Wheel w L) {i : Int} (hi : IsSlot i) {a : Nat} {d : Timer κ υ}
    (hd : timers w a = some d) (ha : a ∈ keys (L i)) : (a, d) ∈ L i := by
  obtain ⟨x, hx, rfl⟩ := List.mem_map.mp ha
  have hxd := (h.timers_mem hi hx).symm.trans hd
  rw [← Option.some.inj hxd]
  exact hx

/-- What rewriting the list of one slot does to the timers. -/
theorem Wheel.timers_replace {w' : TimeWheel κ υ} {ts : Int} {l : List (Nat × Timer κ υ)}
    (h : Wheel w L) (h' : Wheel w' (Function.update L ts l)) (hts : IsSlot ts) {a : Nat}
    {d : Timer κ υ} :
    timers w' a = some d ↔ (a, d) ∈ l ∨ timers w a = some d ∧ a ∉ keys (L ts) := by
  rw [h'.timers_iff, h.timers_iff]
  by_cases hd : d.timeSlot = ts
  · subst hd
    simp only [Function.update_self, hts, true_and]
    constructor
    · intro hal
      exact .inl hal
    · rintro (hal | ⟨hmem, hnot⟩)
      · exact hal
      · exact absurd (List.mem_map_of_mem hmem) hnot
  · simp only [Function.update_of_ne hd]
    constructor
    · intro hmem
      refine .inr ⟨hmem, fun hat => hd ?_⟩
      exact h.slot_unique hmem.1 hts (List.mem_map_of_mem hmem.2) hat
    · rintro (hal | ⟨hmem, -⟩)
      · have hh := h'.home ts hts (a, d) (by simpa using hal)
        exact absurd hh hd
      · exact hmem

theorem ticksOf_eq {timeout : Int} (h : 0 ≤ timeout) :
    ticksOf timeout = max 1 (timeout / TI) := by
  rw [ticksOf, Int.tdiv_eq_ediv_of_nonneg h]
  unfold TI
  split <;> omega

theorem ticksOf_pos {timeout : Int} (h : 0 ≤ timeout) : 0 < ticksOf timeout := by
  rw [ticksOf_eq h]
  omega

/-- What is not negative has its remainder among the slots. -/
theorem isSlot_tmod {n : Int} (h : 0 ≤ n) : IsSlot (n.tmod N) := by
  rw [Int.tmod_eq_emod_of_nonneg h]
  exact ⟨Int.emod_nonneg n (by decide), Int.emod_lt_of_pos n (by decide)⟩

/-- A new timer has a slot, and revolutions that are not negative. -/
theorem newTimer_fits {w : TimeWheel κ υ} (hcur : IsSlot w.curSlot) {timeout : Int}
    (h : 0 ≤ timeout) :
    IsSlot (newTimer w timeout).timeSlot ∧ 0 ≤ (newTimer w timeout).rotation := by
  have hticks := Int.le_of_lt (ticksOf_pos h)
  constructor
  · exact isSlot_tmod (Int.add_nonneg hcur.1 (isSlot_tmod hticks).1)
  · exact Int.tdiv_nonneg hticks (by decide)

theorem link_wheel (h : Wheel w L) {t : Nat} (ht : w.mem t = none) {d : Timer κ υ}
    (hts : IsSlot d.timeSlot) (hrot : 0 ≤ d.rotation) :
    ∃ w', link w t d = some w' ∧ w'.curSlot = w.curSlot ∧
      Wheel w' (Function.update L d.timeSlot ((t, d) :: L d.timeSlot)) := by
  have hlive := (h.seg _ hts).live (a := t)
  have hfresh : t ∉ keys (L d.timeSlot) := fun hk => hlive hk ht
  have hseg : Seg (w.mem.alloc t d) none (L d.timeSlot) none :=
    (h.seg _ hts).off (fun b hb => Cells.alloc_other w.mem d hb) hfresh
  have hnd := h.nodup _ hts
  obtain ⟨m, e, hseg', hframe⟩ : ∃ m, link w t d =
      some { w with mem := m, slots := Function.update w.slots d.timeSlot (some t) } ∧
      Seg m none ((t, d) :: L d.timeSlot) none ∧
      ∀ a, a ∉ keys (L d.timeSlot) → a ≠ t → m a = w.mem a := by
    have hslot := h.slot _ hts
    cases hL : L d.timeSlot with
    | nil =>
      refine ⟨w.mem.alloc t d, by simp [link, hslot, hL], by simp, ?_⟩
      intro a _ ha
      exact Cells.alloc_other w.mem d ha
    | cons u l =>
      rw [hL] at hseg hfresh hnd hslot
      have htu : t ≠ u.1 := fun e => hfresh (by simp [e])
      obtain ⟨m₁, e₁, c₁, f₁⟩ := Cells.setNext_cell (Cells.alloc_same w.mem t d) (some u.1)
      obtain ⟨m₂, e₂, s₂, f₂⟩ :=
        (hseg.off f₁ hfresh).setPrev (List.nodup_cons.mp hnd).1 (some t)
      refine ⟨m₂, by simp [link, hslot, e₁, e₂], ⟨by simp [f₂ t htu, c₁], s₂⟩, ?_⟩
      intro a hau ha
      have hne : a ≠ u.1 := fun e => hau (by simp [e])
      rw [f₂ a hne, f₁ a ha, Cells.alloc_other w.mem d ha]
  refine ⟨_, e, rfl, h.replace hts hseg' (List.nodup_cons.mpr ⟨hfresh, hnd⟩) ?_ ?_ ?_ ?_ ?_⟩
  · intro x hx
    cases hx with
    | head => rfl
    | tail _ hx => exact h.home _ hts x hx
  · intro x hx
    cases hx with
    | head => exact hrot
    | tail _ hx => exact h.turns _ hts x hx
  · intro a ha
    cases ha with
    | head => exact .inr ht
    | tail _ ha => exact .inl ha
  · intro a ha hna
    exact absurd (List.mem_cons_of_mem _ ha) hna
  · intro a ha hna
    exact hframe a ha fun e => hna (by simp [e])

/-- `add_timer` adds the one timer. -/
theorem addTimer_wheel (h : Wheel w L) {t : Nat} (ht : w.mem t = none) {timeout : Int}
    (hto : 0 ≤ timeout) :
    ∃ w' L', addTimer w t timeout = some (w', some t) ∧ Wheel w' L' ∧ w'.curSlot = w.curSlot ∧
      timers w' = Function.update (timers w) t (some (newTimer w timeout)) := by
  obtain ⟨hts, hrot⟩ := newTimer_fits h.cur hto
  have hfresh : t ∉ keys (L (newTimer w timeout).timeSlot) := fun hk => (h.seg _ hts).live hk ht
  obtain ⟨w', e, hcur, hw'⟩ := link_wheel h ht hts hrot
  have hlt : ¬ timeout < 0 := by omega
  refine ⟨w', _, by simp [addTimer, hlt, e], hw', hcur, ?_⟩
  funext a
  refine Option.ext fun d => ?_
  rw [h.timers_replace hw' hts]
  by_cases ha : a = t
  · subst ha
    have hnone : timers w a = none := by simp [timers, ht]
    rw [Function.update_self, hnone]
    constructor
    · rintro (hmem | ⟨hd, -⟩)
      · cases hmem with
        | head => rfl
        | tail _ hmem => exact absurd (List.mem_map_of_mem hmem) hfresh
      · cases hd
    · intro hd
      exact .inl (by simp [Option.some.inj hd])
  · rw [Function.update_of_ne ha]
    constructor
    · rintro (hmem | ⟨hd, -⟩)
      · cases hmem with
        | head => exact absurd rfl ha
        | tail _ hmem => exact h.timers_mem hts hmem
      · exact hd
    · intro hd
      by_cases hk : a ∈ keys (L (newTimer w timeout).timeSlot)
      · exact .inl (List.mem_cons_of_mem _ (h.mem_slot hts hd hk))
      · exact .inr ⟨hd, hk⟩

theorem first_ne {l₁ l₂ : List (Nat × Timer κ υ)} {t : Nat} (hne : l₁ ≠ [])
    (ht : t ∉ keys l₁) : some t ≠ first (l₁ ++ l₂) none := by
  obtain ⟨a, ha, e⟩ := first_mem hne (first l₂ none)
  rw [first_append, e]
  intro hta
  exact ht (Option.some.inj hta ▸ ha)

/-- `del_timer` takes the timer out of the list of its slot and frees it. -/
theorem delTimer_seg (h : Wheel w L) {t : Nat} {d : Timer κ υ} {l₁ l₂ : List (Nat × Timer κ υ)}
    (hts : IsSlot d.timeSlot) (hL : L d.timeSlot = l₁ ++ (t, d) :: l₂) :
    ∃ m, delTimer w (some t) = some
        { w with mem := m, slots := Function.update w.slots d.timeSlot (first (l₁ ++ l₂) none) } ∧
      Seg m none (l₁ ++ l₂) none ∧ m t = none ∧
      ∀ a, a ∉ keys (l₁ ++ (t, d) :: l₂) → m a = w.mem a := by
  have hseg := h.seg _ hts
  have hnd := h.nodup _ hts
  have hslot := h.slot _ hts
  rw [hL] at hseg hnd hslot
  obtain ⟨hA, ht, hB⟩ := seg_append.mp hseg
  obtain ⟨hnd', hfresh⟩ := nodup_remove hnd
  cases l₁ using List.reverseRecOn with
  | nil =>
    have ht' : w.mem t = some ⟨d, none, first l₂ none⟩ := ht
    have hslot' : w.slots d.timeSlot = some t := hslot
    obtain ⟨m₁, e₁, s₁, f₁⟩ := hB.setPrevIf hnd' none
    obtain ⟨m₂, e₂, c₂, f₂⟩ := Cells.free_cell ((f₁ t hfresh).trans ht')
    refine ⟨m₂, by simp [delTimer, ht', hslot', e₁, e₂], s₁.off f₂ hfresh, c₂, ?_⟩
    intro a ha
    have hat : a ≠ t := fun e => ha (by simp [e])
    have hal : a ∉ keys l₂ := fun hal => ha (List.mem_cons_of_mem _ hal)
    rw [f₂ a hat, f₁ a hal]
  | append_singleton l₁ b =>
    have ht' : w.mem t = some ⟨d, some b.1, first l₂ none⟩ := by simpa using ht
    have hne : some t ≠ w.slots d.timeSlot := by
      rw [hslot]
      exact first_ne (by simp) (nodup_split hnd).2.2.1
    obtain ⟨m₁, m₂, e₁, e₂, hs, hcell, hf⟩ := hseg.skip hnd
    obtain ⟨m₃, e₃, c₃, f₃⟩ := Cells.free_cell (hcell.trans ht')
    have hkeep : first ((l₁ ++ [b]) ++ l₂) none = w.slots d.timeSlot := by
      rw [hslot]
      simp
    refine ⟨m₃, ?_, hs.off f₃ hfresh, c₃, ?_⟩
    · rw [hkeep, Function.update_eq_self]
      simp [delTimer, ht', hne, e₁, e₂, e₃]
    · intro a ha
      have hat : a ≠ t := fun e => ha (by simp [e])
      have hal : a ∉ keys ((l₁ ++ [b]) ++ l₂) := fun hal => ha (mem_keys_middle.mpr (.inr hal))
      rw [f₃ a hat, hf a hal]

theorem delTimer_wheel (h : Wheel w L) {t : Nat} {d : Timer κ υ} (ht : timers w t = some d) :
    ∃ w' L', delTimer w (some t) = some w' ∧ Wheel w' L' ∧ w'.curSlot = w.curSlot ∧
      timers w' = Function.update (timers w) t none := by
  obtain ⟨hts, hmem⟩ := h.mem_timers ht
  obtain ⟨l₁, l₂, hL⟩ := List.append_of_mem hmem
  obtain ⟨m, e, hseg, hgone, hframe⟩ := delTimer_seg h hts hL
  obtain ⟨hnd, hfresh⟩ := nodup_remove (hL ▸ h.nodup _ hts)
  have hkeys : ∀ a, a ∈ keys (L d.timeSlot) ↔ a = t ∨ a ∈ keys (l₁ ++ l₂) := by
    intro a
    rw [hL]
    exact mem_keys_middle
  have hw' : Wheel
      { w with mem := m, slots := Function.update w.slots d.timeSlot (first (l₁ ++ l₂) none) }
      (Function.update L d.timeSlot (l₁ ++ l₂)) := by
    have hsub : ∀ x ∈ l₁ ++ l₂, x ∈ L d.timeSlot := by
      intro x hx
      rw [hL]
      exact List.perm_middle.mem_iff.mpr (List.mem_cons_of_mem _ hx)
    refine h.replace hts hseg hnd ?_ ?_ ?_ ?_ ?_
    · intro x hx
      exact h.home _ hts x (hsub x hx)
    · intro x hx
      exact h.turns _ hts x (hsub x hx)
    · intro a ha
      exact .inl ((hkeys a).mpr (.inr ha))
    · intro a ha hna
      rcases (hkeys a).mp ha with rfl | ha
      · exact hgone
      · exact absurd ha hna
    · intro a ha _
      exact hframe a (hL ▸ ha)
  refine ⟨_, _, e, hw', rfl, ?_⟩
  funext a
  refine Option.ext fun d' => ?_
  rw [h.timers_replace hw' hts]
  by_cases ha : a = t
  · subst ha
    rw [Function.update_self]
    constructor
    · rintro (hmem' | ⟨-, hnk⟩)
      · exact absurd (List.mem_map_of_mem hmem') hfresh
      · exact absurd ((hkeys a).mpr (.inl rfl)) hnk
    · intro hd
      cases hd
  · rw [Function.update_of_ne ha]
    have hsub : (a, d') ∈ l₁ ++ l₂ ↔ (a, d') ∈ L d.timeSlot := by
      rw [hL]
      simp only [List.mem_append, List.mem_cons, Prod.mk.injEq, ha, false_and, false_or]
    rw [hsub]
    constructor
    · rintro (hmem' | ⟨hd, -⟩)
      · exact h.timers_mem hts hmem'
      · exact hd
    · intro hd
      by_cases hk : a ∈ keys (L d.timeSlot)
      · exact .inl (h.mem_slot hts hd hk)
      · exact .inr ⟨hd, hk⟩

/-! ## One tick -/

/-- A timer of the current slot whose callback `tick` calls. -/
def Fires (x : Nat × Timer κ υ) : Bool := decide (x.2.rotation ≤ 0)

/-- A timer of the current slot, one revolution later. -/
def turn (x : Nat × Timer κ υ) : Nat × Timer κ υ :=
  (x.1, { x.2 with rotation := x.2.rotation - 1 })

/-- What a tick leaves of the current slot. -/
def stay (l : List (Nat × Timer κ υ)) : List (Nat × Timer κ υ) := (l.filter (! Fires ·)).map turn

/-- The caller of `add_timer` has set the callback and its argument. -/
def Callable (d : Timer κ υ) : Prop := d.cbFunc.isSome = true ∧ d.userData.isSome = true

/-- What the loop does to a timer that fires: it is unlinked and freed, whether it is the first of
its slot or not. -/
theorem tickLoop_fire {w : TimeWheel κ υ} {l₀ l : List (Nat × Timer κ υ)} {a : Nat}
    {d : Timer κ υ} (hslot : w.slots w.curSlot = first (l₀ ++ (a, d) :: l) none)
    (hseg : Seg w.mem none (l₀ ++ (a, d) :: l) none) (hnd : (keys (l₀ ++ (a, d) :: l)).Nodup)
    (hcall : Callable d) (hrot : d.rotation ≤ 0) :
    ∃ m, tickLoop w (some a) = ((tickLoop
        { w with
          mem := m
          slots := Function.update w.slots w.curSlot (first (l₀ ++ l) none) }
        (first l none)).map fun r => (r.1, (a, d) :: r.2)) ∧
      Seg m none (l₀ ++ l) none ∧ m a = none ∧
      ∀ b, b ∉ keys (l₀ ++ (a, d) :: l) → m b = w.mem b := by
  obtain ⟨-, ha, hB⟩ := seg_append.mp hseg
  obtain ⟨hnd', hfresh⟩ := nodup_remove hnd
  obtain ⟨f, hf⟩ := Option.isSome_iff_exists.mp hcall.1
  obtain ⟨u, hu⟩ := Option.isSome_iff_exists.mp hcall.2
  have hdue : ¬0 < d.rotation := Int.not_lt.mpr hrot
  rw [tickLoop_turn, tickIter.eq_def]
  cases l₀ using List.reverseRecOn with
  | nil =>
    have hslot' : w.slots w.curSlot = some a := hslot
    obtain ⟨m₁, e₁, c₁, f₁⟩ := Cells.free_cell ha
    obtain ⟨m₂, e₂, s₂, f₂⟩ := (hB.off f₁ hfresh).setPrevIf hnd' none
    refine ⟨m₂, ?_, s₂, (f₂ a hfresh).trans c₁, fun b hb => ?_⟩
    · have hload : w.mem a = some ⟨d, none, first l none⟩ := ha
      simp only [hload, Cells.load_some, hdue, hf, hu, hslot', e₁, e₂, Option.bind_eq_bind,
        Option.bind_some, gt_iff_lt, if_true, if_false, List.nil_append]
      rw [Option.map_eq_bind]
      rfl
    · have hba : b ≠ a := fun e => hb (by simp [e])
      have hbl : b ∉ keys l := fun h => hb (List.mem_cons_of_mem _ h)
      exact (f₂ b hbl).trans (f₁ b hba)
  | append_singleton l₀ c =>
    have hload : w.mem a = some ⟨d, some c.1, first l none⟩ := by simpa using ha
    have hne : ¬some a = w.slots w.curSlot := by
      rw [hslot]
      exact first_ne (by simp) (nodup_split hnd).2.2.1
    have hsame : Function.update w.slots w.curSlot (first ((l₀ ++ [c]) ++ l) none) = w.slots := by
      rw [Function.update_eq_self_iff, hslot]
      cases l₀ <;> rfl
    obtain ⟨m₁, m₂, e₁, e₂, hs, hcell, hf₂⟩ := hseg.skip hnd
    obtain ⟨m₃, e₃, c₃, f₃⟩ := Cells.free_cell (hcell.trans hload)
    refine ⟨m₃, ?_, hs.off f₃ hfresh, c₃, fun b hb => ?_⟩
    · rw [hsame]
      simp only [hload, Cells.load_some, hdue, hf, hu, hne, e₁, e₂, e₃, Option.bind_eq_bind,
        Option.bind_some, gt_iff_lt, if_false]
      rw [Option.map_eq_bind]
      rfl
    · have hba : b ≠ a := fun e => hb (by simp [e])
      exact (f₃ b hba).trans (hf₂ b fun h => hb (mem_keys_middle.mpr (.inr h)))

theorem tickLoop_seg {w : TimeWheel κ υ} {l₀ l : List (Nat × Timer κ υ)}
    (hslot : w.slots w.curSlot = first (l₀ ++ l) none) (hseg : Seg w.mem none (l₀ ++ l) none)
    (hnd : (keys (l₀ ++ l)).Nodup) (hcall : ∀ x ∈ l, Callable x.2) :
    ∃ m, tickLoop w (first l none) = some
        ({ w with
            mem := m, slots := Function.update w.slots w.curSlot (first (l₀ ++ stay l) none) },
          l.filter Fires) ∧
      Seg m none (l₀ ++ stay l) none ∧ (∀ x ∈ l, Fires x = true → m x.1 = none) ∧
      ∀ a, a ∉ keys (l₀ ++ l) → m a = w.mem a := by
  induction l generalizing w l₀ with
  | nil =>
    refine ⟨w.mem, ?_, by simpa [stay] using hseg, by simp, fun _ _ => rfl⟩
    rw [tickLoop_turn, tickIter.eq_def]
    simp only [List.append_nil] at hslot
    simp [stay, ← hslot]
  | cons x l ih =>
    obtain ⟨a, d⟩ := x
    obtain ⟨hA, ha, hB⟩ := seg_append.mp hseg
    obtain ⟨hnd', hfresh⟩ := nodup_remove hnd
    have ha' : w.mem a = some ⟨d, last none l₀, first l none⟩ := ha
    have hcall' : ∀ x ∈ l, Callable x.2 := fun x hx => hcall x (List.mem_cons_of_mem _ hx)
    rw [first_cons]
    by_cases hrot : d.rotation ≤ 0
    · have hfires : Fires (a, d) = true := by simpa [Fires] using hrot
      have hstay : stay ((a, d) :: l) = stay l := by simp [stay, hfires]
      obtain ⟨m₁, e₁, s₁, c₁, f₁⟩ := tickLoop_fire hslot hseg hnd (hcall (a, d) (by simp)) hrot
      obtain ⟨m, e, hs, hgone, hframe⟩ := @ih
        { w with
          mem := m₁
          slots := Function.update w.slots w.curSlot (first (l₀ ++ l) none) } l₀
        (by simp) s₁ hnd' hcall'
      simp only [Function.update_idem] at e
      rw [hstay, List.filter_cons_of_pos hfires]
      refine ⟨m, by rw [e₁, e]; rfl, hs, ?_, ?_⟩
      · intro x hx hfx
        cases hx with
        | head => exact (hframe a hfresh).trans c₁
        | tail _ hx => exact hgone x hx hfx
      · intro b hb
        exact (hframe b fun h => hb (mem_keys_middle.mpr (.inr h))).trans (f₁ b hb)
    · have hfires : Fires (a, d) = false := by simpa [Fires] using hrot
      have hstay : stay ((a, d) :: l) = turn (a, d) :: stay l := by simp [stay, hfires]
      obtain ⟨m₁, e₁, s₁, f₁⟩ := hseg.setData hnd fun d => { d with rotation := d.rotation - 1 }
      obtain ⟨m, e, hs, hgone, hframe⟩ := @ih { w with mem := m₁ } (l₀ ++ [turn (a, d)])
        (by simpa [turn] using hslot) (by simpa [turn] using s₁) (by simpa [turn] using hnd) hcall'
      rw [hstay, List.filter_cons_of_neg (by simpa using hfires)]
      have hpos : d.rotation > 0 := Int.not_le.mp hrot
      rw [tickLoop_turn, tickIter.eq_def]
      refine ⟨m, by simpa [ha', hpos, e₁] using e, by simpa using hs, ?_, ?_⟩
      · intro x hx hfx
        cases hx with
        | head => simp [hfires] at hfx
        | tail _ hx => exact hgone x hx hfx
      · intro b hb
        have hba : b ≠ a := fun e => hb (by simp [e])
        exact (hframe b (by simpa [turn] using hb)).trans (f₁ b hba)

/-- A timer after the wheel's pointer has been at slot `cur`. -/
def after (cur : Int) (d : Timer κ υ) : Option (Timer κ υ) :=
  if d.timeSlot = cur then
    if d.rotation ≤ 0 then none else some { d with rotation := d.rotation - 1 }
  else
    some d

theorem mem_stay {l : List (Nat × Timer κ υ)} {a : Nat} {d : Timer κ υ} :
    (a, d) ∈ stay l ↔
      ∃ d₀, (a, d₀) ∈ l ∧ ¬d₀.rotation ≤ 0 ∧ d = { d₀ with rotation := d₀.rotation - 1 } := by
  simp only [stay, List.mem_map, List.mem_filter, Fires, turn, Prod.exists, Prod.mk.injEq,
    Bool.not_eq_true', decide_eq_false_iff_not]
  constructor
  · intro ⟨a', d₀, ⟨hmem, hrot⟩, ha, hd⟩
    subst ha
    exact ⟨d₀, hmem, hrot, hd.symm⟩
  · intro ⟨d₀, hmem, hrot, hd⟩
    exact ⟨a, d₀, ⟨hmem, hrot⟩, rfl, hd.symm⟩

theorem keys_stay (l : List (Nat × Timer κ υ)) : (keys (stay l)).Sublist (keys l) := by
  have hmap : keys (stay l) = keys (l.filter (! Fires ·)) := by simp [stay, keys, turn]
  rw [hmap]
  exact List.filter_sublist.map Prod.fst

/-- The timers of the wheel in which the current slot keeps those that stay. -/
theorem Wheel.timers_stay (h : Wheel w L) {m : Cells (Timer κ υ)} {slots : Int → Option Nat}
    (hw : Wheel { w with mem := m, slots := slots }
      (Function.update L w.curSlot (stay (L w.curSlot)))) (a : Nat) :
    timers { w with mem := m, slots := slots } a = (timers w a).bind (after w.curSlot) := by
  have hcur := h.cur
  refine Option.ext fun d => ?_
  refine (h.timers_replace hw hcur).trans ?_
  rw [Option.bind_eq_some_iff, mem_stay]
  constructor
  · rintro (⟨d₀, hmem, hrot, hd⟩ | ⟨hd, hk⟩)
    · have hts : d₀.timeSlot = w.curSlot := h.home _ hcur _ hmem
      exact ⟨d₀, h.timers_mem hcur hmem, by rw [after, if_pos hts, if_neg hrot, hd]⟩
    · refine ⟨d, hd, ?_⟩
      have hne : d.timeSlot ≠ w.curSlot := by
        intro he
        exact hk (List.mem_map_of_mem (he ▸ (h.mem_timers hd).2))
      simp [after, hne]
  · intro ⟨d₀, hd₀, haft⟩
    by_cases hts : d₀.timeSlot = w.curSlot
    · by_cases hrot : d₀.rotation ≤ 0
      · simp [after, hts, hrot] at haft
      · rw [after, if_pos hts, if_neg hrot, Option.some.injEq] at haft
        exact .inl ⟨d₀, hts ▸ (h.mem_timers hd₀).2, hrot, haft.symm⟩
    · simp only [after, hts, if_false, Option.some.injEq] at haft
      subst haft
      exact .inr ⟨hd₀, fun hk => hts (h.home _ hcur _ (h.mem_slot hcur hd₀ hk))⟩

theorem Wheel.mem_fires (h : Wheel w L) (a : Nat) (d : Timer κ υ) :
    (a, d) ∈ (L w.curSlot).filter Fires ↔
      timers w a = some d ∧ d.timeSlot = w.curSlot ∧ d.rotation ≤ 0 := by
  have hcur := h.cur
  rw [List.mem_filter, h.timers_iff]
  constructor
  · intro ⟨hmem, hf⟩
    have hts := h.home _ hcur _ hmem
    exact ⟨⟨hts ▸ hcur, hts ▸ hmem⟩, hts, by simpa [Fires] using hf⟩
  · intro ⟨⟨_, hmem⟩, hts, hrot⟩
    exact ⟨hts ▸ hmem, by simpa [Fires] using hrot⟩

/-- A tick calls the timers of the current slot with no revolution left, and turns the others of
that slot once. -/
theorem tick_wheel (h : Wheel w L) (hcall : ∀ a d, timers w a = some d → Callable d) :
    ∃ w' L' called, tick w = some (w', called) ∧ Wheel w' L' ∧
      w'.curSlot = (w.curSlot + 1).tmod N ∧
      (∀ a, timers w' a = (timers w a).bind (after w.curSlot)) ∧
      (∀ a d, (a, d) ∈ called ↔
        timers w a = some d ∧ d.timeSlot = w.curSlot ∧ d.rotation ≤ 0) ∧
      (keys called).Nodup := by
  have hcur := h.cur
  have hsub := keys_stay (L w.curSlot)
  obtain ⟨m, e, hseg, hgone, hframe⟩ := @tickLoop_seg _ _ w [] _ (h.slot _ hcur) (h.seg _ hcur)
    (h.nodup _ hcur) (fun x hx => hcall _ _ (h.timers_mem hcur hx))
  have hw : Wheel
      { w with
        mem := m
        slots := Function.update w.slots w.curSlot (first (stay (L w.curSlot)) none) }
      (Function.update L w.curSlot (stay (L w.curSlot))) := by
    refine h.replace hcur hseg ((h.nodup _ hcur).sublist hsub) ?_ ?_ ?_ ?_ ?_
    · intro x hx
      obtain ⟨d₀, hmem, -, hd⟩ := mem_stay.mp hx
      rw [hd]
      exact h.home _ hcur _ hmem
    · intro x hx
      obtain ⟨d₀, -, hrot, hd⟩ := mem_stay.mp hx
      rw [hd]
      show 0 ≤ d₀.rotation - 1
      omega
    · intro a ha
      exact .inl (hsub.subset ha)
    · intro a ha hna
      obtain ⟨x, hx, rfl⟩ := List.mem_map.mp ha
      refine hgone x hx ?_
      by_contra hf
      refine hna (List.mem_map.mpr ⟨turn x, ?_, rfl⟩)
      exact List.mem_map_of_mem (List.mem_filter.mpr ⟨hx, by simpa using hf⟩)
    · intro a ha _
      exact hframe a ha
  refine ⟨⟨Function.update w.slots w.curSlot (first (stay (L w.curSlot)) none),
      (w.curSlot + 1).tmod N, m⟩, _, (L w.curSlot).filter Fires,
    by simp [tick, h.slot _ hcur, e],
    ⟨?_, hw.slot, hw.seg, hw.nodup, hw.home, hw.turns, hw.all⟩, rfl, ?_, ?_, ?_⟩
  · exact isSlot_tmod (Int.add_nonneg hcur.1 (by decide))
  · exact h.timers_stay hw
  · exact h.mem_fires
  · exact (h.nodup _ hcur).sublist (List.filter_sublist.map Prod.fst)

end

end

end TwTimer
end Unpvol1
