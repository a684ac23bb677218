import Mathlib.Data.List.Basic
import Mathlib.Data.List.Induction
import Mathlib.Data.List.Nodup
import Mathlib.Logic.Function.Basic

/-!
# Lib.DList

Doubly linked lists in a memory of cells. A pointer is `none` for NULL, and reading or writing
through NULL or through a freed cell has no result.

* `Cells α`     — the memory: the cell at each address, or nothing where none is allocated.
* `Seg m p l q` — the cells of `l`, in this order, are linked both ways in `m`; the first points
  back to `p` and the last points on to `q`.
* `Forward`, `Backward` — what following `next` from a pointer, and `prev` from a pointer, visits.
* `Linked m head l` — the same by its links alone, for a list that is NULL-terminated.

`Seg` splits at any point (`seg_append`), is kept by writes elsewhere (`Seg.frame`), and the two
writes at its ends (`Seg.setPrev`, `Seg.setNext`) change only what it is connected to. Every
insertion and removal is made of these.
-/

namespace Unpvol1

abbrev Ptr := Option Nat

structure Cell (α : Type) where
  data : α
  prev : Ptr
  next : Ptr
deriving DecidableEq

abbrev Cells (α : Type) := Nat → Option (Cell α)

namespace Cells
variable {α : Type}

def load (m : Cells α) (p : Ptr) : Option (Cell α) := p.bind m

def store (m : Cells α) (p : Ptr) (f : Cell α → Cell α) : Option (Cells α) := do
  let a ← p
  let c ← m a
  some (Function.update m a (some (f c)))

def setPrev (m : Cells α) (p v : Ptr) : Option (Cells α) := m.store p ({ · with prev := v })

/-- `if( p ) p->prev = v`. -/
def setPrevIf (m : Cells α) (p v : Ptr) : Option (Cells α) :=
  if p = none then some m else m.setPrev p v

def setNext (m : Cells α) (p v : Ptr) : Option (Cells α) := m.store p ({ · with next := v })

def setData (m : Cells α) (p : Ptr) (f : α → α) : Option (Cells α) :=
  m.store p fun c => { c with data := f c.data }

/-- A new cell at `a`, its two pointers NULL. -/
def alloc (m : Cells α) (a : Nat) (d : α) : Cells α := Function.update m a (some ⟨d, none, none⟩)

def free (m : Cells α) (p : Ptr) : Option (Cells α) := do
  let a ← p
  let _ ← m a
  some (Function.update m a none)

@[simp] theorem load_some (m : Cells α) (a : Nat) : m.load (some a) = m a := rfl

theorem store_some {m : Cells α} {a : Nat} {c : Cell α} (h : m a = some c) (f : Cell α → Cell α) :
    m.store (some a) f = some (Function.update m a (some (f c))) := by simp [store, h]

/-- A write to the cell at `a`: that cell changes, every other stays. -/
theorem store_cell {m : Cells α} {a : Nat} {c : Cell α} (h : m a = some c) (f : Cell α → Cell α) :
    ∃ m', m.store (some a) f = some m' ∧ m' a = some (f c) ∧ ∀ b, b ≠ a → m' b = m b := by
  refine ⟨_, store_some h f, by simp, ?_⟩
  intro b hb
  exact Function.update_of_ne hb _ _

theorem setPrev_cell {m : Cells α} {a : Nat} {c : Cell α} (h : m a = some c) (v : Ptr) :
    ∃ m', m.setPrev (some a) v = some m' ∧ m' a = some { c with prev := v } ∧
      ∀ b, b ≠ a → m' b = m b := store_cell h _

theorem setNext_cell {m : Cells α} {a : Nat} {c : Cell α} (h : m a = some c) (v : Ptr) :
    ∃ m', m.setNext (some a) v = some m' ∧ m' a = some { c with next := v } ∧
      ∀ b, b ≠ a → m' b = m b := store_cell h _

theorem free_cell {m : Cells α} {a : Nat} {c : Cell α} (h : m a = some c) :
    ∃ m', m.free (some a) = some m' ∧ m' a = none ∧ ∀ b, b ≠ a → m' b = m b := by
  refine ⟨Function.update m a none, by simp [free, h], by simp, ?_⟩
  intro b hb
  exact Function.update_of_ne hb _ _

@[simp] theorem setPrevIf_none (m : Cells α) (v : Ptr) : m.setPrevIf none v = some m := rfl

@[simp] theorem setPrevIf_some (m : Cells α) (a : Nat) (v : Ptr) :
    m.setPrevIf (some a) v = m.setPrev (some a) v := rfl

@[simp] theorem alloc_same (m : Cells α) (a : Nat) (d : α) :
    m.alloc a d a = some ⟨d, none, none⟩ := by simp [alloc]

theorem alloc_other (m : Cells α) {a b : Nat} (d : α) (h : b ≠ a) : m.alloc a d b = m b := by
  simp [alloc, h]

end Cells

namespace DList
variable {α : Type}

abbrev keys (l : List (Nat × α)) : List Nat := l.map Prod.fst

/-- The address of the first cell of `l`, or `q` when there is none. -/
def first (l : List (Nat × α)) (q : Ptr) : Ptr :=
  match l with
  | [] => q
  | x :: _ => some x.1

/-- The address of the last cell of `l`, or `p` when there is none. -/
def last (p : Ptr) : List (Nat × α) → Ptr
  | [] => p
  | x :: l => last (some x.1) l

def Seg (m : Cells α) : Ptr → List (Nat × α) → Ptr → Prop
  | _, [], _ => True
  | p, x :: l, q => m x.1 = some ⟨x.2, p, first l q⟩ ∧ Seg m (some x.1) l q

inductive Forward (m : Cells α) : Ptr → List Nat → Prop where
  | null : Forward m none []
  | cell {a : Nat} {c : Cell α} {l : List Nat} :
      m a = some c → Forward m c.next l → Forward m (some a) (a :: l)

inductive Backward (m : Cells α) : Ptr → List Nat → Prop where
  | null : Backward m none []
  | cell {a : Nat} {c : Cell α} {l : List Nat} :
      m a = some c → Backward m c.prev l → Backward m (some a) (a :: l)

/-- From `head` on, the cells `l` are a list that NULL ends on both sides, and `next` and `prev` are
inverse on it. -/
structure Linked (m : Cells α) (head : Ptr) (l : List Nat) : Prop where
  forward : Forward m head l
  nodup : l.Nodup
  head_prev : ∀ a, head = some a → ∃ c, m a = some c ∧ c.prev = none
  next_prev : ∀ a ∈ l, ∀ c, m a = some c → ∀ b, c.next = some b →
    ∃ c', m b = some c' ∧ c'.prev = some a
  prev_next : ∀ a ∈ l, ∀ c, m a = some c → ∀ b, c.prev = some b →
    ∃ c', m b = some c' ∧ c'.next = some a

/-! ## Ends -/

@[simp] theorem first_nil (q : Ptr) : first ([] : List (Nat × α)) q = q := rfl
@[simp] theorem first_cons (x : Nat × α) (l : List (Nat × α)) (q : Ptr) :
    first (x :: l) q = some x.1 := rfl
@[simp] theorem last_nil (p : Ptr) : last p ([] : List (Nat × α)) = p := rfl
@[simp] theorem last_cons (p : Ptr) (x : Nat × α) (l : List (Nat × α)) :
    last p (x :: l) = last (some x.1) l := rfl

@[simp] theorem first_append (l₁ l₂ : List (Nat × α)) (q : Ptr) :
    first (l₁ ++ l₂) q = first l₁ (first l₂ q) := by cases l₁ <;> rfl

@[simp] theorem last_append (p : Ptr) (l₁ l₂ : List (Nat × α)) :
    last p (l₁ ++ l₂) = last (last p l₁) l₂ := by
  induction l₁ generalizing p with
  | nil => rfl
  | cons x l₁ ih => exact ih (some x.1)

theorem last_eq_getLast? (l : List (Nat × α)) (p : Ptr) :
    last p l = ((keys l).getLast?).or p := by
  induction l generalizing p with
  | nil => rfl
  | cons x l ih =>
    rw [last_cons, ih]
    cases l <;> simp [List.getLast?_cons]

theorem first_mem {l : List (Nat × α)} (h : l ≠ []) (q : Ptr) :
    ∃ a ∈ keys l, first l q = some a := by
  cases l with
  | nil => exact absurd rfl h
  | cons x l => exact ⟨x.1, by simp, rfl⟩

theorem last_mem {l : List (Nat × α)} (h : l ≠ []) (p : Ptr) : ∃ a ∈ keys l, last p l = some a := by
  induction l generalizing p with
  | nil => exact absurd rfl h
  | cons x l ih =>
    by_cases hl : l = []
    · exact ⟨x.1, by simp, by simp [hl]⟩
    · obtain ⟨a, ha, e⟩ := ih hl (some x.1)
      exact ⟨a, List.mem_cons_of_mem _ ha, e⟩

/-- Distinct addresses, around one cell of the list. -/
theorem nodup_split {l₁ l₂ : List (Nat × α)} {x : Nat × α} (h : (keys (l₁ ++ x :: l₂)).Nodup) :
    (keys l₁).Nodup ∧ (keys l₂).Nodup ∧ x.1 ∉ keys l₁ ∧ x.1 ∉ keys l₂ ∧
      ∀ a ∈ keys l₁, a ∉ keys l₂ := by
  simp only [keys, List.map_append, List.map_cons, List.nodup_append, List.nodup_cons] at h
  obtain ⟨h₁, ⟨hx₂, h₂⟩, hd⟩ := h
  refine ⟨h₁, h₂, ?_, hx₂, ?_⟩
  · intro hx
    exact hd x.1 hx x.1 (by simp) rfl
  · intro a ha ha₂
    exact hd a ha a (List.mem_cons_of_mem _ ha₂) rfl

theorem ne_of_nodup {l₁ l₂ : List (Nat × α)} {x : Nat × α} (h : (keys (l₁ ++ x :: l₂)).Nodup) :
    (∀ y ∈ l₁, y.1 ≠ x.1) ∧ ∀ y ∈ l₂, y.1 ≠ x.1 := by
  obtain ⟨-, -, h₁, h₂, -⟩ := nodup_split h
  constructor
  · intro y hy e
    exact h₁ (e ▸ (List.mem_map_of_mem hy : y.1 ∈ keys l₁))
  · intro y hy e
    exact h₂ (e ▸ (List.mem_map_of_mem hy : y.1 ∈ keys l₂))

theorem keys_middle (l₁ l₂ : List (Nat × α)) (x : Nat × α) :
    (keys (l₁ ++ x :: l₂)).Perm (x.1 :: keys (l₁ ++ l₂)) :=
  (show (l₁ ++ x :: l₂).Perm (x :: (l₁ ++ l₂)) from List.perm_middle).map Prod.fst

theorem mem_keys_middle {l₁ l₂ : List (Nat × α)} {x : Nat × α} {a : Nat} :
    a ∈ keys (l₁ ++ x :: l₂) ↔ a = x.1 ∨ a ∈ keys (l₁ ++ l₂) := by
  rw [(keys_middle l₁ l₂ x).mem_iff, List.mem_cons]

theorem nodup_remove {l₁ l₂ : List (Nat × α)} {x : Nat × α} (h : (keys (l₁ ++ x :: l₂)).Nodup) :
    (keys (l₁ ++ l₂)).Nodup ∧ x.1 ∉ keys (l₁ ++ l₂) := by
  obtain ⟨hx, hn⟩ := List.nodup_cons.mp ((keys_middle l₁ l₂ x).nodup_iff.mp h)
  exact ⟨hn, hx⟩

/-! ## Segments -/

@[simp] theorem seg_nil (m : Cells α) (p q : Ptr) : Seg m p [] q := trivial

@[simp] theorem seg_cons {m : Cells α} {p q : Ptr} {x : Nat × α} {l : List (Nat × α)} :
    Seg m p (x :: l) q ↔ m x.1 = some ⟨x.2, p, first l q⟩ ∧ Seg m (some x.1) l q := Iff.rfl

theorem seg_append {m : Cells α} {p q : Ptr} {l₁ l₂ : List (Nat × α)} :
    Seg m p (l₁ ++ l₂) q ↔ Seg m p l₁ (first l₂ q) ∧ Seg m (last p l₁) l₂ q := by
  induction l₁ generalizing p with
  | nil => simp
  | cons x l₁ ih => simp [ih, and_assoc]

theorem Seg.frame {m m' : Cells α} {p q : Ptr} {l : List (Nat × α)} (h : Seg m p l q)
    (hf : ∀ a ∈ keys l, m' a = m a) : Seg m' p l q := by
  induction l generalizing p with
  | nil => trivial
  | cons x l ih =>
    obtain ⟨hx, hl⟩ := h
    refine ⟨by rw [hf x.1 (by simp), hx], ih hl ?_⟩
    intro a ha
    exact hf a (by simp_all)

/-- A change to one cell outside the segment. -/
theorem Seg.off {m m' : Cells α} {p q : Ptr} {l : List (Nat × α)} {a : Nat} (h : Seg m p l q)
    (hf : ∀ b, b ≠ a → m' b = m b) (ha : a ∉ keys l) : Seg m' p l q := by
  refine h.frame ?_
  intro b hb
  have hne : b ≠ a := fun e => ha (e ▸ hb)
  exact hf b hne

theorem Seg.load {m : Cells α} {p q : Ptr} {l : List (Nat × α)} (h : Seg m p l q) {x : Nat × α}
    (hx : x ∈ l) : ∃ c, m x.1 = some c ∧ c.data = x.2 := by
  induction l generalizing p with
  | nil => cases hx
  | cons y l ih =>
    cases hx with
    | head => exact ⟨_, h.1, rfl⟩
    | tail _ hx => exact ih h.2 hx

theorem Seg.live {m : Cells α} {p q : Ptr} {l : List (Nat × α)} (h : Seg m p l q) {a : Nat}
    (ha : a ∈ keys l) : m a ≠ none := by
  obtain ⟨x, hx, rfl⟩ := List.mem_map.mp ha
  obtain ⟨c, hc, -⟩ := h.load hx
  simp [hc]

/-- Writing the first cell's `prev` connects the segment to another predecessor. -/
theorem Seg.setPrev {m : Cells α} {p q : Ptr} {x : Nat × α} {l : List (Nat × α)}
    (h : Seg m p (x :: l) q) (hx : x.1 ∉ keys l) (v : Ptr) :
    ∃ m', m.setPrev (some x.1) v = some m' ∧ Seg m' v (x :: l) q ∧ ∀ b, b ≠ x.1 → m' b = m b := by
  obtain ⟨m', e, hc, hf⟩ := Cells.setPrev_cell h.1 v
  exact ⟨m', e, ⟨hc, h.2.off hf hx⟩, hf⟩

/-- As `Seg.setPrev`, where the segment may be empty. -/
theorem Seg.setPrevIf {m : Cells α} {p : Ptr} {l : List (Nat × α)} (h : Seg m p l none)
    (hn : (keys l).Nodup) (v : Ptr) :
    ∃ m', m.setPrevIf (first l none) v = some m' ∧ Seg m' v l none ∧
      ∀ b, b ∉ keys l → m' b = m b := by
  cases l with
  | nil => exact ⟨m, rfl, trivial, fun _ _ => rfl⟩
  | cons x l =>
    obtain ⟨m', e, hs, hf⟩ := h.setPrev (List.nodup_cons.mp hn).1 v
    exact ⟨m', e, hs, fun b hb => hf b fun e => hb (by simp [e])⟩

/-- Writing the last cell's `next` connects the segment to another successor. -/
theorem Seg.setNext {m : Cells α} {p q : Ptr} {x : Nat × α} {l : List (Nat × α)}
    (h : Seg m p (l ++ [x]) q) (hx : x.1 ∉ keys l) (v : Ptr) :
    ∃ m', m.setNext (some x.1) v = some m' ∧ Seg m' p (l ++ [x]) v ∧
      ∀ b, b ≠ x.1 → m' b = m b := by
  obtain ⟨hl, hx₀, -⟩ := seg_append.mp h
  obtain ⟨m', e, hc, hf⟩ := Cells.setNext_cell hx₀ v
  exact ⟨m', e, seg_append.mpr ⟨hl.off hf hx, hc, trivial⟩, hf⟩

/-- Writing the data of a cell of the segment. -/
theorem Seg.setData {m : Cells α} {p q : Ptr} {a : Nat} {d : α} {l₁ l₂ : List (Nat × α)}
    (h : Seg m p (l₁ ++ (a, d) :: l₂) q) (hn : (keys (l₁ ++ (a, d) :: l₂)).Nodup) (f : α → α) :
    ∃ m', m.setData (some a) f = some m' ∧ Seg m' p (l₁ ++ (a, f d) :: l₂) q ∧
      ∀ b, b ≠ a → m' b = m b := by
  obtain ⟨h₁, hc, h₂⟩ := seg_append.mp h
  obtain ⟨-, -, ha₁, ha₂, -⟩ := nodup_split hn
  obtain ⟨m', e, hc', hf⟩ := Cells.store_cell hc fun c => { c with data := f c.data }
  exact ⟨m', e, seg_append.mpr ⟨h₁.off hf ha₁, hc', h₂.off hf ha₂⟩, hf⟩

/-- Taking the cell `x` out from between `a` and `u`: the two writes that skip it, after which its
own cell is still as it was. -/
theorem Seg.unlink {m : Cells α} {p q : Ptr} {a x u : Nat × α} {l₁ l₂ : List (Nat × α)}
    (h : Seg m p ((l₁ ++ [a]) ++ x :: u :: l₂) q)
    (hn : (keys ((l₁ ++ [a]) ++ x :: u :: l₂)).Nodup) :
    ∃ m₁ m₂, m.setNext (some a.1) (some u.1) = some m₁ ∧
      m₁.setPrev (some u.1) (some a.1) = some m₂ ∧
      Seg m₂ p ((l₁ ++ [a]) ++ u :: l₂) q ∧ m₂ x.1 = m x.1 ∧
      ∀ b, b ≠ a.1 → b ≠ u.1 → m₂ b = m b := by
  obtain ⟨hA, hx, hB⟩ := seg_append.mp h
  obtain ⟨hn₁, hn₂, hx₁, hx₂, hd⟩ := nodup_split hn
  have ha₁ : a.1 ∉ keys l₁ := 
    (nodup_split (show (keys (l₁ ++ a :: [])).Nodup from hn₁)).2.2.1
  have hu₂ : u.1 ∉ keys l₂ := (List.nodup_cons.mp hn₂).1
  have haB : a.1 ∉ keys (u :: l₂) := hd a.1 (by simp)
  have huA : u.1 ∉ keys (l₁ ++ [a]) := fun hu => hd u.1 hu (by simp)
  have hxa : x.1 ≠ a.1 := fun e => hx₁ (by simp [e])
  have hxu : x.1 ≠ u.1 := fun e => hx₂ (by simp [e])
  obtain ⟨m₁, e₁, s₁, f₁⟩ := hA.setNext ha₁ (some u.1)
  obtain ⟨m₂, e₂, s₂, f₂⟩ := (hB.off f₁ haB).setPrev hu₂ (some a.1)
  refine ⟨m₁, m₂, e₁, e₂, seg_append.mpr ⟨s₁.off f₂ huA, by simpa using s₂⟩, ?_, ?_⟩
  · rw [f₂ x.1 hxu, f₁ x.1 hxa]
  · intro b hba hbu
    rw [f₂ b hbu, f₁ b hba]

/-- As `Seg.unlink`, where the cell taken out may be the last one. -/
theorem Seg.skip {m : Cells α} {p : Ptr} {a x : Nat × α} {l₁ l₂ : List (Nat × α)}
    (h : Seg m p ((l₁ ++ [a]) ++ x :: l₂) none)
    (hn : (keys ((l₁ ++ [a]) ++ x :: l₂)).Nodup) :
    ∃ m₁ m₂, m.setNext (some a.1) (first l₂ none) = some m₁ ∧
      m₁.setPrevIf (first l₂ none) (some a.1) = some m₂ ∧
      Seg m₂ p ((l₁ ++ [a]) ++ l₂) none ∧ m₂ x.1 = m x.1 ∧
      ∀ b, b ∉ keys ((l₁ ++ [a]) ++ l₂) → m₂ b = m b := by
  cases l₂ with
  | nil =>
    obtain ⟨hA, -⟩ := seg_append.mp h
    obtain ⟨hn₁, -, hx₁, -, -⟩ := nodup_split hn
    have ha₁ : a.1 ∉ keys l₁ :=
      (nodup_split (show (keys (l₁ ++ a :: [])).Nodup from hn₁)).2.2.1
    have hxa : x.1 ≠ a.1 := fun e => hx₁ (by simp [e])
    obtain ⟨m₁, e₁, s₁, f₁⟩ := hA.setNext ha₁ none
    refine ⟨m₁, m₁, e₁, rfl, by simpa using s₁, f₁ x.1 hxa, ?_⟩
    intro b hb
    exact f₁ b fun e => hb (by simp [e])
  | cons u l₂ =>
    obtain ⟨m₁, m₂, e₁, e₂, hs, hx, hf⟩ := h.unlink hn
    refine ⟨m₁, m₂, e₁, e₂, hs, hx, ?_⟩
    intro b hb
    exact hf b (fun e => hb (by simp [e])) fun e => hb (by simp [e])

/-! ## Traversals -/

theorem Seg.forward {m : Cells α} {p : Ptr} {l : List (Nat × α)} (h : Seg m p l none) :
    Forward m (first l none) (keys l) := by
  induction l generalizing p with
  | nil => exact .null
  | cons x l ih => exact .cell h.1 (ih h.2)

theorem Seg.backward {m : Cells α} {q : Ptr} {l : List (Nat × α)} (h : Seg m none l q) :
    Backward m (last none l) (keys l).reverse := by
  induction l using List.reverseRecOn generalizing q with
  | nil => exact .null
  | append_singleton l x ih =>
    obtain ⟨hl, hx, -⟩ := seg_append.mp h
    simpa using Backward.cell hx (ih hl)

/-! ## Neighbours -/

/-- The successor of a cell points back to it, or there is none in the segment. -/
theorem Seg.succ {m : Cells α} {p q : Ptr} {l : List (Nat × α)} (h : Seg m p l q) {a : Nat}
    {c : Cell α} (ha : a ∈ keys l) (hc : m a = some c) :
    c.next = q ∨ ∃ b c', c.next = some b ∧ m b = some c' ∧ c'.prev = some a := by
  induction l generalizing p with
  | nil => cases ha
  | cons x l ih =>
    obtain ⟨hx, hl⟩ := h
    rcases List.mem_cons.mp ha with rfl | ha
    · obtain rfl : _ = c := Option.some.inj (hx.symm.trans hc)
      cases l with
      | nil => exact .inl rfl
      | cons y l => exact .inr ⟨y.1, _, rfl, hl.1, rfl⟩
    · exact ih hl ha

/-- The predecessor of a cell points on to it, or there is none in the segment. -/
theorem Seg.pred {m : Cells α} {p q : Ptr} {l : List (Nat × α)} (h : Seg m p l q) {a : Nat}
    {c : Cell α} (ha : a ∈ keys l) (hc : m a = some c) :
    (c.prev = p ∧ first l q = some a) ∨
      ∃ b c', c.prev = some b ∧ m b = some c' ∧ c'.next = some a := by
  induction l generalizing p with
  | nil => cases ha
  | cons x l ih =>
    obtain ⟨hx, hl⟩ := h
    rcases List.mem_cons.mp ha with rfl | ha
    · obtain rfl : _ = c := Option.some.inj (hx.symm.trans hc)
      exact .inl ⟨rfl, rfl⟩
    · rcases ih hl ha with ⟨hprev, hfirst⟩ | hbefore
      · exact .inr ⟨x.1, _, hprev, hx, hfirst⟩
      · exact .inr hbefore

theorem Seg.linked {m : Cells α} {l : List (Nat × α)} (h : Seg m none l none)
    (hn : (keys l).Nodup) : Linked m (first l none) (keys l) where
  forward := h.forward
  nodup := hn
  head_prev := by
    intro a ha
    cases l with
    | nil => cases ha
    | cons x l =>
      cases ha
      exact ⟨_, h.1, rfl⟩
  next_prev := by
    intro a ha c hc b hb
    rcases h.succ ha hc with hnone | ⟨b', c', hb', hc', hprev⟩
    · rw [hb] at hnone
      cases hnone
    · obtain rfl : b = b' := Option.some.inj (hb.symm.trans hb')
      exact ⟨c', hc', hprev⟩
  prev_next := by
    intro a ha c hc b hb
    rcases h.pred ha hc with ⟨hnone, _⟩ | ⟨b', c', hb', hc', hnext⟩
    · rw [hb] at hnone
      cases hnone
    · obtain rfl : b = b' := Option.some.inj (hb.symm.trans hb')
      exact ⟨c', hc', hnext⟩

end DList
end Unpvol1
