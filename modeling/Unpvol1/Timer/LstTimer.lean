import Unpvol1.Lib.DList
import Unpvol1.Lib.Loop
import Unpvol1.Lib.SortedBy

/-!
# Timer.LstTimer

The sorted timer list (`sort_timer_lst`), with the memory its timers live in. Every function has no
result where the code would follow NULL or a freed timer, or where its loop would not end.

* `Repr s l` — the list object `s` holds the timers `l`, in this order, linked both ways.
* `addTimer_repr`, `adjustTimer_repr`, `delTimer_repr`, `tick_repr` — what each operation does to
  the list it holds: an ordered insertion, a move towards the end, a removal, and the removal of
  the timers before the first one that is not due.
-/

namespace Unpvol1
namespace LstTimer

open DList Loop

/-- The fields of `util_timer` besides its two links. -/
structure UtilTimer (κ υ : Type) where
  expire : Int
  cbFunc : κ
  userData : υ
deriving DecidableEq

structure SortTimerLst (κ υ : Type) where
  head : Ptr
  tail : Ptr
  mem : Cells (UtilTimer κ υ)

section
variable {κ υ : Type}

/-- One turn of the loop of the private `add_timer( timer, lst_head )`, and the case after it;
`addTimerLoop` is the loop from the next turn on. -/
def addTimerIter (m : Cells (UtilTimer κ υ)) (tail timer : Ptr)
    (addTimerLoop : Ptr → Ptr → Option (Cells (UtilTimer κ υ) × Ptr)) (prev tmp : Ptr) :
    Option (Cells (UtilTimer κ υ) × Ptr) := do
  if tmp = none then
    let m ← m.setNext prev timer
    let m ← m.setPrev timer prev
    let m ← m.setNext timer none
    some (m, timer)
  else
    let t ← m.load timer
    let u ← m.load tmp
    if t.data.expire < u.data.expire then
      let m ← m.setNext prev timer
      let m ← m.setNext timer tmp
      let m ← m.setPrev tmp timer
      let m ← m.setPrev timer prev
      some (m, tail)
    else
      addTimerLoop tmp u.next

def addTimerBody (m : Cells (UtilTimer κ υ)) (tail timer : Ptr) :
    Body Ptr Ptr (Cells (UtilTimer κ υ) × Ptr) where
  iter := addTimerIter m tail timer
  mono f g h prev tmp := by
    unfold addTimerIter
    refine .ite (.refl _) ?_
    exact .bind _ fun t => .bind _ fun u => .ite (.refl _) (h _ _)

/-- The loop of the private `add_timer( timer, lst_head )` and the case after it. -/
def addTimerLoop (m : Cells (UtilTimer κ υ)) (tail timer prev tmp : Ptr) :
    Option (Cells (UtilTimer κ υ) × Ptr) :=
  (addTimerBody m tail timer).run prev tmp

theorem addTimerLoop_turn (m : Cells (UtilTimer κ υ)) (tail timer prev tmp : Ptr) :
    addTimerLoop m tail timer prev tmp =
      addTimerIter m tail timer (addTimerLoop m tail timer) prev tmp :=
  (addTimerBody m tail timer).run_eq prev tmp

/-- The private `add_timer( timer, lst_head )`. -/
def addTimerAfter (s : SortTimerLst κ υ) (timer lstHead : Ptr) : Option (SortTimerLst κ υ) := do
  let p ← s.mem.load lstHead
  let (m, tail) ← addTimerLoop s.mem s.tail timer lstHead p.next
  some { s with mem := m, tail := tail }

def addTimer (s : SortTimerLst κ υ) (timer : Ptr) : Option (SortTimerLst κ υ) := do
  if timer = none then
    some s
  else if s.head = none then
    some { s with head := timer, tail := timer }
  else
    let t ← s.mem.load timer
    let h ← s.mem.load s.head
    if t.data.expire < h.data.expire then
      let m ← s.mem.setNext timer s.head
      let m ← m.setPrev s.head timer
      some { s with mem := m, head := timer }
    else
      addTimerAfter s timer s.head

def adjustTimer (s : SortTimerLst κ υ) (timer : Ptr) : Option (SortTimerLst κ υ) := do
  if timer = none then
    some s
  else
    let t ← s.mem.load timer
    let tmp := t.next
    if tmp = none then
      some s
    else
      let u ← s.mem.load tmp
      if t.data.expire < u.data.expire then
        some s
      else if timer = s.head then
        let h ← s.mem.load s.head
        let head := h.next
        let m ← s.mem.setPrev head none
        let m ← m.setNext timer none
        addTimerAfter { s with mem := m, head := head } timer head
      else
        let m ← s.mem.setNext t.prev t.next
        let m ← m.setPrev t.next t.prev
        addTimerAfter { s with mem := m } timer t.next

def delTimer (s : SortTimerLst κ υ) (timer : Ptr) : Option (SortTimerLst κ υ) := do
  if timer = none then
    some s
  else if timer = s.head ∧ timer = s.tail then
    let m ← s.mem.free timer
    some { mem := m, head := none, tail := none }
  else if timer = s.head then
    let h ← s.mem.load s.head
    let head := h.next
    let m ← s.mem.setPrev head none
    let m ← m.free timer
    some { s with mem := m, head := head }
  else if timer = s.tail then
    let e ← s.mem.load s.tail
    let tail := e.prev
    let m ← s.mem.setNext tail none
    let m ← m.free timer
    some { s with mem := m, tail := tail }
  else
    let t ← s.mem.load timer
    let m ← s.mem.setNext t.prev t.next
    let m ← m.setPrev t.next t.prev
    let m ← m.free timer
    some { s with mem := m }

/-- One turn of the loop of `tick`; `tickLoop` is the loop from the next turn on. -/
def tickIter (cur : Int)
    (tickLoop : SortTimerLst κ υ → Ptr → Option (SortTimerLst κ υ × List (Nat × UtilTimer κ υ)))
    (s : SortTimerLst κ υ) (tmp : Ptr) :
    Option (SortTimerLst κ υ × List (Nat × UtilTimer κ υ)) := do
  match tmp with
  | none => some (s, [])
  | some a =>
    let t ← s.mem.load tmp
    if cur < t.data.expire then
      some (s, [])
    else
      let head := t.next
      let m ← s.mem.setPrevIf head none
      let m ← m.free tmp
      let (s, called) ← tickLoop { s with mem := m, head := head } head
      some (s, (a, t.data) :: called)

def tickBody (cur : Int) :
    Body (SortTimerLst κ υ) Ptr (SortTimerLst κ υ × List (Nat × UtilTimer κ υ)) where
  iter := tickIter cur
  mono f g h s tmp := by
    unfold tickIter
    cases tmp with
    | none => exact .refl _
    | some a =>
      refine .bind _ fun t => .ite (.refl _) ?_
      exact .bind _ fun m => .bind _ fun m => .bind_rest (h _ _) _

/-- The loop of `tick`, with the timers whose `cb_func( user_data )` it calls, in order. -/
def tickLoop (cur : Int) (s : SortTimerLst κ υ) (tmp : Ptr) :
    Option (SortTimerLst κ υ × List (Nat × UtilTimer κ υ)) :=
  (tickBody cur).run s tmp

theorem tickLoop_turn (cur : Int) (s : SortTimerLst κ υ) (tmp : Ptr) :
    tickLoop cur s tmp = tickIter cur (tickLoop cur) s tmp :=
  (tickBody cur).run_eq s tmp

/-- `tick` at the clock reading `cur`. -/
def tick (cur : Int) (s : SortTimerLst κ υ) :
    Option (SortTimerLst κ υ × List (Nat × UtilTimer κ υ)) :=
  if s.head = none then some (s, []) else tickLoop cur s s.head

/-! ## The list a `sort_timer_lst` holds -/

abbrev Timers (κ υ : Type) := List (Nat × UtilTimer κ υ)

abbrev dueAt (x : Nat × UtilTimer κ υ) : Int := x.2.expire

structure Repr (s : SortTimerLst κ υ) (l : Timers κ υ) : Prop where
  head : s.head = first l none
  tail : l ≠ [] → s.tail = last none l
  seg : Seg s.mem none l none
  nodup : (keys l).Nodup

/-! ## Insertion -/

/-- Behind the last timer `b` the loop links the new one in at the end. -/
theorem addTimerLoop_end {m : Cells (UtilTimer κ υ)} {t : Nat} {d : UtilTimer κ υ} {pv nx : Ptr}
    {l₁ : Timers κ υ} {b : Nat × UtilTimer κ υ} (tail : Ptr)
    (hseg : Seg m none (l₁ ++ [b]) none) (hnd : (keys (l₁ ++ [b])).Nodup)
    (ht : m t = some ⟨d, pv, nx⟩) (hfresh : t ∉ keys (l₁ ++ [b])) :
    ∃ m', addTimerLoop m tail (some t) (some b.1) none = some (m', some t) ∧
      Seg m' none (l₁ ++ [b, (t, d)]) none ∧
      ∀ a, a ≠ t → a ∉ keys (l₁ ++ [b]) → m' a = m a := by
  have hb : b.1 ∉ keys l₁ := (nodup_split hnd).2.2.1
  have htb : t ≠ b.1 := by
    intro e
    simp [e] at hfresh
  obtain ⟨m₁, e₁, s₁, f₁⟩ := hseg.setNext hb (some t)
  obtain ⟨m₂, e₂, c₂, f₂⟩ := Cells.setPrev_cell ((f₁ t htb).trans ht) (some b.1)
  obtain ⟨m₃, e₃, c₃, f₃⟩ := Cells.setNext_cell c₂ none
  have s₃ : Seg m₃ none (l₁ ++ [b]) (some t) := (s₁.off f₂ hfresh).off f₃ hfresh
  refine ⟨m₃, ?_, ?_, ?_⟩
  · rw [addTimerLoop_turn, addTimerIter]
    simp [e₁, e₂, e₃]
  · have := seg_append.mpr ⟨s₃, (show Seg m₃ (last none (l₁ ++ [b])) [(t, d)] none by simp [c₃])⟩
    simpa using this
  · intro a hat ha
    have hab : a ≠ b.1 := by
      intro e
      simp [e] at ha
    rw [f₃ a hat, f₂ a hat, f₁ a hab]

/-- Before a timer `u` that is due later the loop links the new one in between `b` and `u`. -/
theorem addTimerLoop_between {m : Cells (UtilTimer κ υ)} {t : Nat} {d : UtilTimer κ υ}
    {pv nx : Ptr} {l₁ l₂ : Timers κ υ} {b u : Nat × UtilTimer κ υ} (tail : Ptr)
    (hA : Seg m none (l₁ ++ [b]) (some u.1)) (hB : Seg m (some b.1) (u :: l₂) none)
    (hnd : (keys ((l₁ ++ [b]) ++ u :: l₂)).Nodup) (ht : m t = some ⟨d, pv, nx⟩)
    (hfreshA : t ∉ keys (l₁ ++ [b])) (hfreshB : t ∉ keys (u :: l₂))
    (hlt : d.expire < u.2.expire) :
    ∃ m', addTimerLoop m tail (some t) (some b.1) (some u.1) = some (m', tail) ∧
      Seg m' none (l₁ ++ b :: (t, d) :: u :: l₂) none ∧
      ∀ a, a ≠ t → a ∉ keys (l₁ ++ b :: u :: l₂) → m' a = m a := by
  have hsplit : (l₁ ++ [b]) ++ u :: l₂ = l₁ ++ b :: u :: l₂ := by simp
  obtain ⟨-, -, hb₁, hb₂, -⟩ := nodup_split (hsplit ▸ hnd)
  obtain ⟨-, -, huA, hu₂, -⟩ := nodup_split hnd
  have htb : t ≠ b.1 := fun e => hfreshA (by simp [e])
  have htu : t ≠ u.1 := fun e => hfreshB (by simp [e])
  obtain ⟨m₁, e₁, s₁, f₁⟩ := hA.setNext hb₁ (some t)
  obtain ⟨m₂, e₂, c₂, f₂⟩ := Cells.setNext_cell ((f₁ t htb).trans ht) (some u.1)
  have s₂ : Seg m₂ (some b.1) (u :: l₂) none := (hB.off f₁ hb₂).off f₂ hfreshB
  obtain ⟨m₃, e₃, s₃, f₃⟩ := s₂.setPrev hu₂ (some t)
  obtain ⟨m₄, e₄, c₄, f₄⟩ := Cells.setPrev_cell ((f₃ t htu).trans c₂) (some b.1)
  have hA₄ : Seg m₄ none (l₁ ++ [b]) (some t) :=
    ((s₁.off f₂ hfreshA).off f₃ huA).off f₄ hfreshA
  have hB₄ : Seg m₄ (some t) (u :: l₂) none := s₃.off f₄ hfreshB
  refine ⟨m₄, ?_, ?_, ?_⟩
  · rw [addTimerLoop_turn, addTimerIter]
    simp [ht, hB.1, hlt, e₁, e₂, e₃, e₄]
  · have hC : Seg m₄ (last none (l₁ ++ [b])) ((t, d) :: u :: l₂) none := ⟨by simp [c₄], hB₄⟩
    simpa using seg_append.mpr ⟨hA₄, hC⟩
  · intro a hat ha
    have hab : a ≠ b.1 := fun e => ha (by simp [e])
    have hau : a ≠ u.1 := fun e => ha (by simp [e])
    rw [f₄ a hat, f₃ a hau, f₂ a hat, f₁ a hab]

/-- From a position `b` of the list, the loop links the timer in before the first later timer that
is due after it. -/
theorem addTimerLoop_seg {m : Cells (UtilTimer κ υ)} {t : Nat} {d : UtilTimer κ υ} {pv nx : Ptr}
    {l₁ l₂ : Timers κ υ} {b : Nat × UtilTimer κ υ} {tail : Ptr}
    (hseg : Seg m none (l₁ ++ b :: l₂) none) (hnd : (keys (l₁ ++ b :: l₂)).Nodup)
    (ht : m t = some ⟨d, pv, nx⟩) (hfresh : t ∉ keys (l₁ ++ b :: l₂))
    (htail : tail = last none (l₁ ++ b :: l₂)) :
    ∃ m', addTimerLoop m tail (some t) (some b.1) (first l₂ none) =
        some (m', last none (l₁ ++ b :: insertBy dueAt (t, d) l₂)) ∧
      Seg m' none (l₁ ++ b :: insertBy dueAt (t, d) l₂) none ∧
      ∀ a, a ≠ t → a ∉ keys (l₁ ++ b :: l₂) → m' a = m a := by
  induction l₂ generalizing l₁ b with
  | nil =>
    obtain ⟨m', e, s', f'⟩ := addTimerLoop_end tail hseg hnd ht hfresh
    exact ⟨m', by simpa using e, s', f'⟩
  | cons u l₂ ih =>
    have hsplit : (l₁ ++ [b]) ++ u :: l₂ = l₁ ++ b :: u :: l₂ := by simp
    rw [← hsplit, seg_append] at hseg
    have hA : Seg m none (l₁ ++ [b]) (some u.1) := hseg.1
    have hB : Seg m (some b.1) (u :: l₂) none := by simpa using hseg.2
    by_cases hlt : d.expire < u.2.expire
    · obtain ⟨hfreshA, hfreshB⟩ : t ∉ keys (l₁ ++ [b]) ∧ t ∉ keys (u :: l₂) := by
        rw [← not_or, ← List.mem_append, ← List.map_append, hsplit]
        exact hfresh
      obtain ⟨m', e, s', f'⟩ := addTimerLoop_between tail hA hB (hsplit ▸ hnd) ht
        hfreshA hfreshB hlt
      rw [insertBy_cons_lt (f := dueAt) (x := (t, d)) hlt]
      refine ⟨m', ?_, s', f'⟩
      rw [htail] at e ⊢
      simpa using e
    · obtain ⟨m', e, s', f'⟩ := ih (seg_append.mpr hseg)
        (by simpa using hnd) (by simpa using hfresh) (by simpa using htail)
      rw [insertBy_cons_ge (f := dueAt) (x := (t, d)) hlt]
      refine ⟨m', ?_, by simpa using s', by simpa using f'⟩
      rw [addTimerLoop_turn, addTimerIter]
      simpa [ht, hB.1, hlt] using e

theorem addTimerAfter_repr {s : SortTimerLst κ υ} {t : Nat} {d : UtilTimer κ υ} {pv nx : Ptr}
    {l₁ l₂ : Timers κ υ} {b : Nat × UtilTimer κ υ} (h : Repr s (l₁ ++ b :: l₂))
    (ht : s.mem t = some ⟨d, pv, nx⟩) (hfresh : t ∉ keys (l₁ ++ b :: l₂)) :
    ∃ s', addTimerAfter s (some t) (some b.1) = some s' ∧
      Repr s' (l₁ ++ b :: insertBy dueAt (t, d) l₂) := by
  obtain ⟨m', e, s', -⟩ := addTimerLoop_seg h.seg h.nodup ht hfresh (h.tail (by simp))
  have hb : s.mem b.1 = some ⟨b.2, last none l₁, first l₂ none⟩ := (seg_append.mp h.seg).2.1
  refine ⟨{ s with mem := m', tail := last none (l₁ ++ b :: insertBy dueAt (t, d) l₂) },
    by simp [addTimerAfter, hb, e], ?_⟩
  constructor
  · rw [h.head]
    simp
  · intro _
    rfl
  · exact s'
  · have hins := perm_insertBy (f := dueAt) (l₁ ++ [b]) l₂ (t, d)
    have hnd : (keys (l₁ ++ [b] ++ insertBy dueAt (t, d) l₂)).Nodup :=
      (hins.map Prod.fst).nodup_iff.mpr (List.nodup_cons.mpr ⟨by simpa using hfresh,
        by simpa using h.nodup⟩)
    simpa using hnd

/-- `add_timer` of a fresh timer. -/
theorem addTimer_repr {s : SortTimerLst κ υ} {t : Nat} {d : UtilTimer κ υ} {l : Timers κ υ}
    (h : Repr s l) (ht : s.mem t = some ⟨d, none, none⟩) (hfresh : t ∉ keys l) :
    ∃ s', addTimer s (some t) = some s' ∧ Repr s' (insertBy dueAt (t, d) l) := by
  cases l with
  | nil =>
    have hhead : s.head = none := h.head
    refine ⟨{ s with head := some t, tail := some t }, by simp [addTimer, hhead], ?_⟩
    constructor <;> simp [ht]
  | cons b l =>
    have hhead : s.head = some b.1 := h.head
    have hb : s.mem b.1 = some ⟨b.2, none, first l none⟩ := h.seg.1
    have hbl : b.1 ∉ keys l := (List.nodup_cons.mp h.nodup).1
    have htb : t ≠ b.1 := fun e => hfresh (by simp [e])
    by_cases hlt : d.expire < b.2.expire
    · obtain ⟨m₁, e₁, c₁, f₁⟩ := Cells.setNext_cell ht (some b.1)
      obtain ⟨m₂, e₂, s₂, f₂⟩ := (h.seg.off f₁ hfresh).setPrev hbl (some t)
      rw [insertBy_cons_lt (f := dueAt) (x := (t, d)) hlt]
      refine ⟨{ s with mem := m₂, head := some t },
        by simp [addTimer, hhead, ht, hb, hlt, e₁, e₂], ?_⟩
      constructor
      · rfl
      · intro _
        exact h.tail (by simp)
      · exact ⟨by simp [f₂ t htb, c₁], s₂⟩
      · exact List.nodup_cons.mpr ⟨hfresh, h.nodup⟩
    · rw [insertBy_cons_ge (f := dueAt) (x := (t, d)) hlt]
      obtain ⟨s', e, hs'⟩ := addTimerAfter_repr (show Repr s ([] ++ b :: l) from h) ht hfresh
      exact ⟨s', by simpa [addTimer, hhead, ht, hb, hlt] using e, hs'⟩

/-! ## Moves and removals -/

theorem head_ne {s : SortTimerLst κ υ} {t : Nat} {d : UtilTimer κ υ} {l₁ l₂ : Timers κ υ}
    (h : Repr s (l₁ ++ (t, d) :: l₂)) (hne : l₁ ≠ []) : s.head ≠ some t := by
  obtain ⟨a, ha, e⟩ := first_mem hne (first ((t, d) :: l₂) none)
  have hta : a ≠ t := fun hat => (nodup_split h.nodup).2.2.1 (hat ▸ ha)
  rw [h.head, first_append, e]
  simpa using hta

theorem tail_ne {s : SortTimerLst κ υ} {t : Nat} {d : UtilTimer κ υ} {l₁ l₂ : Timers κ υ}
    (h : Repr s (l₁ ++ (t, d) :: l₂)) (hne : l₂ ≠ []) : s.tail ≠ some t := by
  obtain ⟨a, ha, e⟩ := last_mem hne (some t)
  have hta : a ≠ t := fun hat => (nodup_split h.nodup).2.2.2.1 (hat ▸ ha)
  rw [h.tail (by simp), last_append, last_cons, e]
  simpa using hta

/-- `adjust_timer` of a timer of the list: it moves behind the later timers that are not due after
it. -/
theorem adjustTimer_repr {s : SortTimerLst κ υ} {t : Nat} {d : UtilTimer κ υ}
    {l₁ l₂ : Timers κ υ} (h : Repr s (l₁ ++ (t, d) :: l₂)) :
    ∃ s', adjustTimer s (some t) = some s' ∧
      Repr s' (l₁ ++ insertBy dueAt (t, d) l₂) := by
  obtain ⟨hA, ht, hB⟩ := seg_append.mp h.seg
  obtain ⟨hnd, hfresh⟩ := nodup_remove h.nodup
  cases l₂ with
  | nil =>
    have ht' : s.mem t = some ⟨d, last none l₁, none⟩ := ht
    exact ⟨s, by simp [adjustTimer, ht'], h⟩
  | cons u l₂ =>
    have ht' : s.mem t = some ⟨d, last none l₁, some u.1⟩ := ht
    have hu : s.mem u.1 = some ⟨u.2, some t, first l₂ none⟩ := hB.1
    by_cases hlt : d.expire < u.2.expire
    · rw [insertBy_cons_lt (f := dueAt) (x := (t, d)) hlt]
      exact ⟨s, by simp [adjustTimer, ht', hu, hlt], h⟩
    rw [insertBy_cons_ge (f := dueAt) (x := (t, d)) hlt]
    cases l₁ using List.reverseRecOn with
    | nil =>
      -- the timer is the head
      have hhead : s.head = some t := h.head
      have hu₂ : u.1 ∉ keys l₂ := (List.nodup_cons.mp hnd).1
      have htu : t ≠ u.1 := fun e => hfresh (by simp [e])
      obtain ⟨m₁, e₁, s₁, f₁⟩ := hB.setPrev hu₂ none
      obtain ⟨m₂, e₂, c₂, f₂⟩ := Cells.setNext_cell ((f₁ t htu).trans ht') none
      have hs : Repr { s with mem := m₂, head := some u.1 } ([] ++ u :: l₂) :=
        ⟨rfl, fun _ => h.tail (by simp), s₁.off f₂ hfresh, hnd⟩
      obtain ⟨s', e, hs'⟩ := addTimerAfter_repr hs c₂ hfresh
      exact ⟨s', by simpa [adjustTimer, ht', hu, hlt, hhead, e₁, e₂] using e, hs'⟩
    | append_singleton l₁ a =>
      have hhead : s.head ≠ some t := head_ne h (by simp)
      obtain ⟨m₁, m₂, e₁, e₂, hseg, hcell, -⟩ := h.seg.unlink h.nodup
      have hs : Repr { s with mem := m₂ } ((l₁ ++ [a]) ++ u :: l₂) :=
        ⟨by simpa using h.head, fun _ => by simpa using h.tail (by simp), hseg, hnd⟩
      obtain ⟨s', e, hs'⟩ := addTimerAfter_repr hs (hcell.trans ht') hfresh
      exact ⟨s', by simpa [adjustTimer, ht', hu, hlt, Ne.symm hhead, e₁, e₂] using e, hs'⟩

/-- `del_timer` of a timer of the list. -/
theorem delTimer_repr {s : SortTimerLst κ υ} {t : Nat} {d : UtilTimer κ υ} {l₁ l₂ : Timers κ υ}
    (h : Repr s (l₁ ++ (t, d) :: l₂)) :
    ∃ s', delTimer s (some t) = some s' ∧ Repr s' (l₁ ++ l₂) := by
  obtain ⟨hA, ht, hB⟩ := seg_append.mp h.seg
  obtain ⟨hnd, hfresh⟩ := nodup_remove h.nodup
  cases l₁ using List.reverseRecOn with
  | nil =>
    have hhead : s.head = some t := h.head
    cases l₂ with
    | nil =>
      have htail : s.tail = some t := h.tail (by simp)
      obtain ⟨m₁, e₁, -, -⟩ := Cells.free_cell ht
      exact ⟨{ mem := m₁, head := none, tail := none },
        by simp [delTimer, hhead, htail, e₁], by constructor <;> simp⟩
    | cons u l₂ =>
      have htail : s.tail ≠ some t := tail_ne h (by simp)
      have hu₂ : u.1 ∉ keys l₂ := (List.nodup_cons.mp hnd).1
      have htu : t ≠ u.1 := fun e => hfresh (by simp [e])
      have ht' : s.mem t = some ⟨d, none, some u.1⟩ := ht
      obtain ⟨m₁, e₁, s₁, f₁⟩ := hB.setPrev hu₂ none
      obtain ⟨m₂, e₂, -, f₂⟩ := Cells.free_cell ((f₁ t htu).trans ht')
      exact ⟨{ s with mem := m₂, head := some u.1 },
        by simp [delTimer, hhead, htail.symm, ht', e₁, e₂],
        ⟨rfl, fun _ => h.tail (by simp), s₁.off f₂ hfresh, hnd⟩⟩
  | append_singleton l₁ a =>
    have hhead : s.head ≠ some t := head_ne h (by simp)
    cases l₂ with
    | nil =>
      have htail : s.tail = some t := by simpa using h.tail (by simp)
      have ht' : s.mem t = some ⟨d, some a.1, none⟩ := by simpa using ht
      have hnd' : (keys (l₁ ++ a :: [])).Nodup := by simpa using hnd
      have ha₁ : a.1 ∉ keys l₁ := (nodup_split hnd').2.2.1
      have hta : t ≠ a.1 := fun e => hfresh (by simp [e])
      obtain ⟨m₁, e₁, s₁, f₁⟩ := hA.setNext ha₁ none
      obtain ⟨m₂, e₂, -, f₂⟩ := Cells.free_cell ((f₁ t hta).trans ht')
      exact ⟨{ s with mem := m₂, tail := some a.1 },
        by simp [delTimer, hhead.symm, htail, ht', e₁, e₂],
        ⟨by simpa using h.head, by simp, by simpa using s₁.off f₂ (by simpa using hfresh), hnd⟩⟩
    | cons u l₂ =>
      have htail : s.tail ≠ some t := tail_ne h (by simp)
      have ht' : s.mem t = some ⟨d, some a.1, some u.1⟩ := by simpa using ht
      obtain ⟨m₁, m₂, e₁, e₂, hseg, hcell, -⟩ := h.seg.unlink h.nodup
      obtain ⟨m₃, e₃, -, f₃⟩ := Cells.free_cell (hcell.trans ht')
      exact ⟨{ s with mem := m₃ },
        by simp [delTimer, hhead.symm, htail.symm, ht', e₁, e₂, e₃],
        ⟨by simpa using h.head, fun _ => by simpa using h.tail (by simp),
          hseg.off f₃ hfresh, hnd⟩⟩

/-! ## Ticks -/

/-- A timer `tick` finds due. -/
def Due (cur : Int) (x : Nat × UtilTimer κ υ) : Bool := decide (x.2.expire ≤ cur)

theorem tickLoop_repr (cur : Int) {s : SortTimerLst κ υ} {l : Timers κ υ} (h : Repr s l) :
    ∃ s', tickLoop cur s s.head = some (s', l.takeWhile (Due cur)) ∧
      Repr s' (l.dropWhile (Due cur)) := by
  induction l generalizing s with
  | nil => exact ⟨s, by rw [tickLoop_turn, h.head]; rfl, h⟩
  | cons x l ih =>
    have hx : s.mem x.1 = some ⟨x.2, none, first l none⟩ := h.seg.1
    have hhead : s.head = some x.1 := h.head
    obtain ⟨hxl, hl⟩ := List.nodup_cons.mp h.nodup
    rw [tickLoop_turn, hhead, tickIter]
    by_cases hlt : cur < x.2.expire
    · have hdue : Due cur x = false := by simpa [Due] using hlt
      simp only [List.takeWhile_cons, List.dropWhile_cons, hdue]
      exact ⟨s, by simp [hx, hlt], h⟩
    have hdue : Due cur x = true := by simpa [Due] using hlt
    simp only [List.takeWhile_cons, List.dropWhile_cons, hdue]
    obtain ⟨m₁, e₁, s₁, f₁⟩ := h.seg.2.setPrevIf hl none
    obtain ⟨m₂, e₂, -, f₂⟩ := Cells.free_cell ((f₁ x.1 hxl).trans hx)
    have hs : Repr { s with mem := m₂, head := first l none } l := by
      refine ⟨rfl, fun hne => ?_, s₁.off f₂ hxl, hl⟩
      rw [h.tail (List.cons_ne_nil _ _)]
      cases l with
      | nil => exact absurd rfl hne
      | cons u l => rfl
    obtain ⟨s', e, hs'⟩ := ih hs
    exact ⟨s', by simp [hx, hlt, e₁, e₂, e], hs'⟩

/-- `tick` takes the timers before the first one that is not due and calls their callbacks. -/
theorem tick_repr (cur : Int) {s : SortTimerLst κ υ} {l : Timers κ υ} (h : Repr s l) :
    ∃ s', tick cur s = some (s', l.takeWhile (Due cur)) ∧ Repr s' (l.dropWhile (Due cur)) := by
  by_cases hhead : s.head = none
  · cases l with
    | nil => exact ⟨s, by simp [tick, hhead], h⟩
    | cons x l => simp [h.head] at hhead
  · simpa [tick, hhead] using tickLoop_repr cur h

end

end LstTimer
end Unpvol1
