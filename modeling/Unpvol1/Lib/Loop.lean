import Mathlib.Logic.Function.Basic

/-!
# Lib.Loop

Loops that need not end. A `Body` is one turn of a loop over two variables, as a function of what
the loop does from the next turn on. `Body.run` is the loop, the least function that is one turn and
then itself, so that a loop which does not end has no result.

* `Extends`     — one computation returns what the other returns, and maybe more.
* `Extends.bind`, `Extends.bind_rest`, `Extends.ite`, `Extends.exceptT_bind` — what a turn is made
  of keeps it.
* `Body.run_eq` — a loop is one turn, and the loop after it.
-/

namespace Unpvol1
namespace Loop

section
variable {σ π α β ε : Type}

/-- Where `x` returns, `y` returns the same. -/
def Extends (x y : Option β) : Prop := ∀ b, x = some b → y = some b

namespace Extends

theorem refl (x : Option β) : Extends x x := fun _ h => h

theorem bind (m : Option α) {k k' : α → Option β} (h : ∀ a, Extends (k a) (k' a)) :
    Extends (m >>= k) (m >>= k') := by
  cases m with
  | none => exact refl _
  | some a => exact h a

/-- What follows the rest of the loop. -/
theorem bind_rest {m m' : Option α} (h : Extends m m') (k : α → Option β) :
    Extends (m >>= k) (m' >>= k) := by
  cases m with
  | none =>
    intro b e
    cases e
  | some a =>
    rw [h a rfl]
    exact refl _

theorem ite {c : Prop} [Decidable c] {x x' y y' : Option β} (hx : Extends x x')
    (hy : Extends y y') : Extends (if c then x else y) (if c then x' else y') := by
  split
  · exact hx
  · exact hy

theorem exceptT_bind (m : ExceptT ε Option α) {k k' : α → ExceptT ε Option β}
    (h : ∀ a, Extends (k a).run (k' a).run) : Extends (m >>= k).run (m >>= k').run := by
  rcases m with _ | _ | a
  · exact refl _
  · exact refl _
  · exact h a

theorem exceptT_bind_rest {m m' : ExceptT ε Option α} (h : Extends m.run m'.run)
    (k : α → ExceptT ε Option β) : Extends (m >>= k).run (m' >>= k).run :=
  bind_rest h _

/-- `Extends` is below every relation that has `none` at its bottom. -/
theorem rel {x y : Option β} {R : Option β → Option β → Prop} (h : Extends x y)
    (hbot : R none y) (hrefl : R y y) : R x y := by
  cases x with
  | none => exact hbot
  | some b =>
    rw [h b rfl] at hrefl ⊢
    exact hrefl

end Extends

/-- One turn of a loop over `σ` and `π`. It uses what the rest of the loop returns and nothing else,
so that a rest which returns more makes it return more. -/
structure Body (σ π β : Type) where
  iter : (σ → π → Option β) → σ → π → Option β
  mono : ∀ f g, (∀ s p, Extends (f s p) (g s p)) → ∀ s p, Extends (iter f s p) (iter g s p)

def Body.run (b : Body σ π β) (s : σ) (p : π) : Option β :=
  b.iter b.run s p
partial_fixpoint monotonicity fun f g hfg s p =>
  -- `iter` is monotone by its field only; `hfg` says it of the order in which `none` is least
  have hrest : ∀ s p, Extends (f s p) (g s p) := fun s p c hc => by
    have hrel := hfg s p
    rw [hc] at hrel
    generalize g s p = y at hrel
    cases hrel
    rfl
  Extends.rel (x := b.iter f s p) (y := b.iter g s p) (b.mono f g hrest s p)
    (by constructor) (by constructor)

theorem Body.run_eq (b : Body σ π β) (s : σ) (p : π) : b.run s p = b.iter b.run s p := by
  rw [Body.run]

end

end Loop
end Unpvol1
