import Mathlib.Data.List.Sort
import Mathlib.Order.Defs.LinearOrder

/-!
# Lib.SortedBy

Lists in non-decreasing order of a key, kept by insertion behind equal keys.

* `SortedBy f l`    — the keys `f` of `l` do not decrease.
* `insertBy f x l`  — `x` before the first element of `l` with a greater key.
* `insert`, `move`  — insertion keeps the order, also of an element whose key has grown.
* `takeWhile_eq_filter`, `dropWhile_eq_filter` — what a scan up to the first key above a bound
  takes and leaves is decided element by element.
-/

namespace Unpvol1

section
variable {α κ : Type} [LinearOrder κ] {f : α → κ}

def SortedBy (f : α → κ) (l : List α) : Prop := l.Pairwise fun x y => f x ≤ f y

def insertBy (f : α → κ) (x : α) (l : List α) : List α := l.orderedInsert (fun a b => f a < f b) x

@[simp] theorem insertBy_nil (x : α) : insertBy f x [] = [x] := rfl

theorem insertBy_cons_lt {x y : α} (h : f x < f y) (l : List α) :
    insertBy f x (y :: l) = x :: y :: l := by simp [insertBy, h]

theorem insertBy_cons_ge {x y : α} (h : ¬ f x < f y) (l : List α) :
    insertBy f x (y :: l) = y :: insertBy f x l := by simp [insertBy, h]

theorem perm_insertBy (l₁ l₂ : List α) (x : α) :
    (l₁ ++ insertBy f x l₂).Perm (x :: (l₁ ++ l₂)) :=
  ((List.perm_orderedInsert _ x l₂).append_left l₁).trans List.perm_middle

namespace SortedBy

@[simp] theorem nil : SortedBy f [] := List.Pairwise.nil

theorem insert {l : List α} (h : SortedBy f l) (x : α) :
    SortedBy f (insertBy f x l) := by
  induction l with
  | nil => exact List.pairwise_singleton _ _
  | cons y l ih =>
    obtain ⟨hy, hl⟩ := List.pairwise_cons.mp h
    by_cases hlt : f x < f y
    · rw [insertBy_cons_lt hlt]
      refine List.pairwise_cons.mpr ⟨?_, h⟩
      intro z hz
      cases hz with
      | head => exact le_of_lt hlt
      | tail _ hz => exact le_trans (le_of_lt hlt) (hy z hz)
    · rw [insertBy_cons_ge hlt]
      refine List.pairwise_cons.mpr ⟨?_, ih hl⟩
      intro z hz
      have hz' := (List.perm_orderedInsert _ x l).mem_iff.mp hz
      cases hz' with
      | head => exact not_lt.mp hlt
      | tail _ hz' => exact hy z hz'

theorem remove {l₁ l₂ : List α} {x : α} (h : SortedBy f (l₁ ++ x :: l₂)) :
    SortedBy f (l₁ ++ l₂) :=
  List.Pairwise.sublist ((List.sublist_cons_self x l₂).append_left l₁) h

/-- An element whose key has grown goes behind the later elements with keys up to its own. -/
theorem move {l₁ l₂ : List α} {x x' : α} (h : SortedBy f (l₁ ++ x :: l₂)) (hx : f x ≤ f x') :
    SortedBy f (l₁ ++ insertBy f x' l₂) := by
  obtain ⟨h₁, h₂, hcross⟩ := List.pairwise_append.mp h
  refine List.pairwise_append.mpr ⟨h₁, insert (List.pairwise_cons.mp h₂).2 x', ?_⟩
  intro y hy z hz
  have hz' := (List.perm_orderedInsert _ x' l₂).mem_iff.mp hz
  cases hz' with
  | head => exact le_trans (hcross y hy x (by simp)) hx
  | tail _ hz' => exact hcross y hy z (List.mem_cons_of_mem _ hz')

theorem takeWhile_eq_filter {l : List α} (h : SortedBy f l) (c : κ) :
    l.takeWhile (fun x => decide (f x ≤ c)) = l.filter fun x => decide (f x ≤ c) := by
  induction l with
  | nil => rfl
  | cons x l ih =>
    obtain ⟨hx, hl⟩ := List.pairwise_cons.mp h
    by_cases hc : f x ≤ c
    · simp [hc, ih hl]
    · have hrest : l.filter (fun x => decide (f x ≤ c)) = [] := by
        refine List.filter_eq_nil_iff.mpr ?_
        intro y hy hyc
        exact hc (le_trans (hx y hy) (by simpa using hyc))
      simp [hc, hrest]

theorem dropWhile_eq_filter {l : List α} (h : SortedBy f l) (c : κ) :
    l.dropWhile (fun x => decide (f x ≤ c)) = l.filter fun x => decide (c < f x) := by
  induction l with
  | nil => rfl
  | cons x l ih =>
    obtain ⟨hx, hl⟩ := List.pairwise_cons.mp h
    by_cases hc : f x ≤ c
    · simp [hc, ih hl]
    · have hrest : l.filter (fun x => decide (c < f x)) = l := by
        refine List.filter_eq_self.mpr ?_
        intro y hy
        simpa using lt_of_lt_of_le (not_le.mp hc) (hx y hy)
      simp [hc, not_le.mp hc, hrest]

end SortedBy

/-- The part of a split list whose elements satisfy `p`, the other part having none that do. -/
theorem perm_filter_of_split {p : α → Bool} {l l₁ l₂ : List α} (h : l.Perm (l₁ ++ l₂))
    (h₁ : ∀ x ∈ l₁, p x = true) (h₂ : ∀ x ∈ l₂, p x = false) : l₁.Perm (l.filter p) := by
  have hnil : l₂.filter p = [] := List.filter_eq_nil_iff.mpr fun x hx => by simp [h₂ x hx]
  have hp := h.filter p
  rw [List.filter_append, List.filter_eq_self.mpr h₁, hnil, List.append_nil] at hp
  exact hp.symm

/-- Among distinct keys, removing by key removes one element. -/
theorem filter_ne_split {β : Type} [DecidableEq β] {g : α → β} {l₁ l₂ : List α} {x : α}
    (hn : ((l₁ ++ x :: l₂).map g).Nodup) :
    (l₁ ++ x :: l₂).filter (fun y => g y ≠ g x) = l₁ ++ l₂ := by
  rw [List.map_append, List.map_cons] at hn
  have hx := (List.nodup_middle.mp hn)
  have hne : ∀ y ∈ l₁ ++ l₂, g y ≠ g x := by
    intro y hy e
    refine (List.nodup_cons.mp hx).1 ?_
    rw [← e, ← List.map_append]
    exact List.mem_map_of_mem hy
  have hself : ∀ l : List α, (∀ y ∈ l, y ∈ l₁ ++ l₂) → l.filter (fun y => g y ≠ g x) = l := by
    intro l hl
    exact List.filter_eq_self.mpr fun y hy => by simpa using hne y (hl y hy)
  rw [List.filter_append, List.filter_cons_of_neg (by simp),
    hself l₁ fun y hy => List.mem_append_left _ hy, hself l₂ fun y hy => List.mem_append_right _ hy]

end
end Unpvol1
