import Unpvol1.Lib.Machine
import Unpvol1.Timer.LstTimer

/-!
# Timer.LstRuns

Every sequence of operations on a `sort_timer_lst`, beside what it is for: the set of timers added
and not yet deleted or expired.

* `Op`, `exec`  — an operation as its caller performs it.
* `expected`    — what the operation does to the pending timers.
* `Held`        — the list holds the pending timers, sorted; every operation keeps it (`held_step`).
* `lst_wellFormed` — so in every run the two traversals mirror each other and visit, by
  non-decreasing `expire`, exactly the pending timers.
-/

namespace Unpvol1
namespace LstTimer

open DList

inductive Op (κ υ : Type) where
  /-- `timer = new util_timer`, its fields set, `add_timer( timer )`. -/
  | add (t : Nat) (d : UtilTimer κ υ)
  /-- `timer->expire = expire`, `adjust_timer( timer )`. -/
  | adjust (t : Nat) (expire : Int)
  | del (t : Nat)
  | tick (cur : Int)

section
variable {κ υ : Type}

def init : SortTimerLst κ υ where
  head := none
  tail := none
  mem := fun _ => none

def exec (s : SortTimerLst κ υ) : Op κ υ → Option (SortTimerLst κ υ)
  | .add t d => addTimer { s with mem := s.mem.alloc t d } (some t)
  | .adjust t expire => do
    let m ← s.mem.setData (some t) ({ · with expire := expire })
    adjustTimer { s with mem := m } (some t)
  | .del t => delTimer s (some t)
  | .tick cur => (tick cur s).map Prod.fst

/-! ## What the list is for -/

def expected (p : Timers κ υ) : Op κ υ → Timers κ υ
  | .add t d => (t, d) :: p
  | .adjust t expire => p.map fun x => if x.1 = t then (t, { x.2 with expire := expire }) else x
  | .del t => p.filter fun x => x.1 ≠ t
  | .tick cur => p.filter fun x => cur < x.2.expire

/-- What a caller keeps to: an added timer is fresh, an adjusted or deleted one is pending, and an
adjusted one expires no earlier than before. -/
def Allowed (p : Timers κ υ) : Op κ υ → Prop
  | .add t _ => t ∉ keys p
  | .adjust t expire => ∃ d, (t, d) ∈ p ∧ d.expire ≤ expire
  | .del t => t ∈ keys p
  | .tick _ => True

/-- The list, or `none` once an operation had no result, and the pending timers. -/
structure Run (κ υ : Type) where
  lst : Option (SortTimerLst κ υ)
  pending : Timers κ υ

def machine : Machine (Run κ υ) (Op κ υ) where
  step r op := { lst := r.lst.bind (exec · op), pending := expected r.pending op }
  ok r op := Allowed r.pending op

def start : Run κ υ where
  lst := some init
  pending := []

/-- The list object is well formed, sorted, and holds exactly the timers `p`. -/
structure WellFormed (s : SortTimerLst κ υ) (p : Timers κ υ) (l : Timers κ υ) : Prop where
  forward : Forward s.mem s.head (keys l)
  backward : s.head ≠ none → Backward s.mem s.tail (keys l).reverse
  tail : s.head ≠ none → s.tail = (keys l).getLast?
  contents : ∀ x ∈ l, ∃ c, s.mem x.1 = some c ∧ c.data = x.2
  sorted : SortedBy dueAt l
  exact : l.Perm p

/-! ## The invariant -/

def Held (r : Run κ υ) : Prop :=
  ∃ s l, r.lst = some s ∧ Repr s l ∧ SortedBy dueAt l ∧ l.Perm r.pending

theorem repr_init : Repr (init : SortTimerLst κ υ) [] := by constructor <;> simp [init]

theorem Repr.wellFormed {s : SortTimerLst κ υ} {l p : Timers κ υ} (h : Repr s l)
    (hs : SortedBy dueAt l) (hp : l.Perm p) : WellFormed s p l := by
  have hne : s.head ≠ none → l ≠ [] := by
    intro hhead hl
    exact hhead (by rw [h.head, hl]; rfl)
  constructor
  · rw [h.head]
    exact h.seg.forward
  · intro hhead
    rw [h.tail (hne hhead)]
    exact h.seg.backward
  · intro hhead
    rw [h.tail (hne hhead), last_eq_getLast?, Option.or_none]
  · intro x hx
    exact h.seg.load hx
  · exact hs
  · exact hp

/-! ### One operation on the list it holds -/

theorem exec_add {s : SortTimerLst κ υ} {l : Timers κ υ} (h : Repr s l) {t : Nat}
    (d : UtilTimer κ υ) (ht : t ∉ keys l) :
    ∃ s', exec s (.add t d) = some s' ∧ Repr s' (insertBy dueAt (t, d) l) := by
  have hseg : Seg (s.mem.alloc t d) none l none :=
    h.seg.off (fun b hb => Cells.alloc_other s.mem d hb) ht
  have hs : Repr { s with mem := s.mem.alloc t d } l := ⟨h.head, h.tail, hseg, h.nodup⟩
  exact addTimer_repr hs (Cells.alloc_same s.mem t d) ht

theorem exec_adjust {s : SortTimerLst κ υ} {t : Nat} {d : UtilTimer κ υ} {l₁ l₂ : Timers κ υ}
    (h : Repr s (l₁ ++ (t, d) :: l₂)) (expire : Int) :
    ∃ s', exec s (.adjust t expire) = some s' ∧
      Repr s' (l₁ ++ insertBy dueAt (t, { d with expire := expire }) l₂) := by
  obtain ⟨m, e, hseg, -⟩ := h.seg.setData h.nodup ({ · with expire := expire })
  have hs : Repr { s with mem := m } (l₁ ++ (t, { d with expire := expire }) :: l₂) := by
    constructor
    · simpa using h.head
    · intro _
      simpa using h.tail (by simp)
    · exact hseg
    · simpa using h.nodup
  obtain ⟨s', e', hs'⟩ := adjustTimer_repr hs
  exact ⟨s', by simp [exec, e, e'], hs'⟩

/-- Among distinct addresses, a change at `t` touches that entry alone. -/
theorem update_at {l₁ l₂ : Timers κ υ} {t : Nat} {d : UtilTimer κ υ}
    (f : UtilTimer κ υ → UtilTimer κ υ) (hn : (keys (l₁ ++ (t, d) :: l₂)).Nodup) :
    (l₁ ++ (t, d) :: l₂).map (fun x => if x.1 = t then (t, f x.2) else x) =
      l₁ ++ (t, f d) :: l₂ := by
  obtain ⟨h₁, h₂⟩ := ne_of_nodup hn
  have hid : ∀ l : Timers κ υ, (∀ x ∈ l, x.1 ≠ t) →
      l.map (fun x => if x.1 = t then (t, f x.2) else x) = l := by
    intro l hl
    conv_rhs => rw [← List.map_id l]
    exact List.map_congr_left fun x hx => by simp [hl x hx]
  rw [List.map_append, List.map_cons, hid l₁ h₁, hid l₂ h₂]
  simp

theorem held_step (r : Run κ υ) (op : Op κ υ) (h : Held r) (hok : machine.ok r op) :
    Held (machine.step r op) := by
  obtain ⟨s, l, hlst, hrepr, hsorted, hperm⟩ := h
  have hkeys : (keys l).Perm (keys r.pending) := hperm.map Prod.fst
  cases op with
  | add t d =>
    have ht : t ∉ keys l := fun h => hok (hkeys.mem_iff.mp h)
    obtain ⟨s', e, hs'⟩ := exec_add hrepr d ht
    refine ⟨s', _, by simp [machine, hlst, e], hs', hsorted.insert _, ?_⟩
    exact (perm_insertBy [] l (t, d)).trans (hperm.cons _)
  | adjust t expire =>
    obtain ⟨d, hd, hle⟩ := hok
    obtain ⟨l₁, l₂, rfl⟩ := List.append_of_mem (hperm.mem_iff.mpr hd)
    obtain ⟨s', e, hs'⟩ := exec_adjust hrepr expire
    refine ⟨s', _, by simp [machine, hlst, e], hs', hsorted.move hle, ?_⟩
    have hupd := update_at ({ · with expire := expire }) hrepr.nodup
    have hmap := hperm.map fun x => if x.1 = t then (t, { x.2 with expire := expire }) else x
    rw [hupd] at hmap
    exact (perm_insertBy l₁ l₂ _).trans (List.perm_middle.symm.trans hmap)
  | del t =>
    obtain ⟨x, hx, rfl⟩ := List.mem_map.mp (hkeys.mem_iff.mpr hok)
    obtain ⟨l₁, l₂, rfl⟩ := List.append_of_mem hx
    obtain ⟨s', e, hs'⟩ := delTimer_repr hrepr
    refine ⟨s', _, by simp [machine, hlst, exec, e], hs', hsorted.remove, ?_⟩
    have hfil := hperm.filter fun y => y.1 ≠ x.1
    rwa [@filter_ne_split _ _ _ Prod.fst _ _ x hrepr.nodup] at hfil
  | tick cur =>
    obtain ⟨s', e, hs'⟩ := tick_repr cur hrepr
    have hdrop : l.dropWhile (Due cur) = l.filter fun x => cur < x.2.expire :=
      hsorted.dropWhile_eq_filter cur
    refine ⟨s', _, by simp [machine, hlst, exec, e], hs', ?_, ?_⟩
    · exact List.Pairwise.sublist (List.dropWhile_sublist _) hsorted
    · rw [hdrop]
      exact hperm.filter _

/-- In every run of operations, each adding a fresh timer or acting on a pending one, the list is
at every moment a well-formed doubly linked list, sorted, that holds exactly the pending timers. -/
theorem lst_wellFormed (ops : List (Op κ υ)) (h : machine.Valid start ops) :
    machine.Always (fun r => ∃ s l, r.lst = some s ∧ WellFormed s r.pending l) start ops := by
  have hstart : Held (start : Run κ υ) := ⟨init, [], rfl, repr_init, .nil, .nil⟩
  refine (Machine.always_inv held_step hstart h).imp ?_
  intro r hr
  obtain ⟨s, l, hlst, hrepr, hsorted, hperm⟩ := hr
  exact ⟨s, l, hlst, hrepr.wellFormed hsorted hperm⟩

/-- A run that inserts in front and behind, moves the head behind the other timer, lets one expire
and deletes the last. -/
theorem lst_wellFormed_run :
    machine.Always (fun r => ∃ s l, r.lst = some s ∧ WellFormed s r.pending l) start
      [.add 1 ⟨5, (), ()⟩, .add 2 ⟨3, (), ()⟩, .adjust 2 8, .tick 6, .del 2, .tick 9] := by
  refine lst_wellFormed _ ⟨by simp [machine, Allowed, start], ?_⟩
  refine ⟨by simp [machine, Allowed, expected, start], ?_⟩
  refine ⟨⟨⟨3, (), ()⟩, by simp [machine, expected, start], by decide⟩, trivial, ?_⟩
  exact ⟨by simp [machine, Allowed, expected, start], trivial, trivial⟩

end

end LstTimer
end Unpvol1
