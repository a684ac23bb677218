import Unpvol1.Lib.Machine

/-!
# Lib.Progress

Runs that end. A state is `Stuck` when its environment can offer no input.

* `Ends M n Q s` — no run from `s` is longer than `n`, and one that cannot go on ends in `Q`. This
  is total correctness under every schedule: no fairness is assumed.
* `ends_of_measure` — the rule: an invariant, a measure that every step lowers, and `Q` wherever the
  invariant holds of a stuck state.
* `Ends.extend` — every run can be extended to one that ends in `Q`.
* `Reaches M s s'` — some run leads from `s` to `s'`.
-/

namespace Unpvol1
namespace Machine

section
variable {σ ι : Type} {M : Machine σ ι}

def Stuck (M : Machine σ ι) (s : σ) : Prop := ∀ i, ¬ M.ok s i

structure Ends (M : Machine σ ι) (n : Nat) (Q : σ → Prop) (s : σ) : Prop where
  bounded : ∀ is, M.Valid s is → is.length ≤ n
  final : ∀ is, M.Valid s is → M.Stuck (M.run s is) → Q (M.run s is)

/-- A run is no longer than the measure of the state it starts in. -/
theorem length_le_measure {I : σ → Prop} (μ : σ → Nat)
    (hstep : ∀ s i, I s → M.ok s i → I (M.step s i))
    (hlt : ∀ s i, I s → M.ok s i → μ (M.step s i) < μ s) {s : σ} {is : List ι} (hs : I s)
    (hv : M.Valid s is) : is.length ≤ μ s := by
  induction is generalizing s with
  | nil => exact Nat.zero_le _
  | cons i is ih =>
    have hrest := ih (hstep s i hs hv.1) hv.2
    have hdown := hlt s i hs hv.1
    simp only [List.length_cons]
    omega

theorem ends_of_measure {I Q : σ → Prop} (μ : σ → Nat)
    (hstep : ∀ s i, I s → M.ok s i → I (M.step s i))
    (hlt : ∀ s i, I s → M.ok s i → μ (M.step s i) < μ s)
    (hstuck : ∀ s, I s → M.Stuck s → Q s) {s : σ} (hs : I s) : M.Ends (μ s) Q s where
  bounded := fun _ hv => length_le_measure μ hstep hlt hs hv
  final := fun _ hv h => hstuck _ (run_inv hstep hs hv) h

/-- By induction on how many steps are left. -/
theorem Ends.extend {n : Nat} {Q : σ → Prop} {s : σ} (h : M.Ends n Q s) (is : List ι)
    (hv : M.Valid s is) :
    ∃ js, M.Valid s (is ++ js) ∧ M.Stuck (M.run s (is ++ js)) ∧ Q (M.run s (is ++ js)) := by
  by_cases hst : M.Stuck (M.run s is)
  · refine ⟨[], ?_⟩
    rw [List.append_nil]
    exact ⟨hv, hst, h.final is hv hst⟩
  · obtain ⟨i, hi⟩ : ∃ i, M.ok (M.run s is) i := by
      by_contra hno
      exact hst fun i hi => hno ⟨i, hi⟩
    have hv' : M.Valid s (is ++ [i]) := valid_append.mpr ⟨hv, hi, trivial⟩
    have hlen := h.bounded _ hv'
    obtain ⟨js, hjs⟩ := Ends.extend h (is ++ [i]) hv'
    refine ⟨i :: js, ?_⟩
    rwa [List.append_assoc] at hjs
termination_by n - is.length
decreasing_by
  simp only [List.length_append, List.length_cons, List.length_nil] at hlen ⊢
  omega

/-! ## Some run -/

def Reaches (M : Machine σ ι) (s s' : σ) : Prop := ∃ is, M.Valid s is ∧ M.run s is = s'

theorem Reaches.refl (s : σ) : M.Reaches s s := ⟨[], trivial, rfl⟩

theorem Reaches.step {s : σ} {i : ι} (h : M.ok s i) : M.Reaches s (M.step s i) :=
  ⟨[i], ⟨h, trivial⟩, rfl⟩

theorem Reaches.trans {s s' s'' : σ} (h : M.Reaches s s') (h' : M.Reaches s' s'') :
    M.Reaches s s'' := by
  obtain ⟨is, hv, rfl⟩ := h
  obtain ⟨js, hv', rfl⟩ := h'
  exact ⟨is ++ js, valid_append.mpr ⟨hv, hv'⟩, run_append s is js⟩

theorem Ends.of_reaches {n : Nat} {Q : σ → Prop} {s s' : σ} (h : M.Ends n Q s)
    (hr : M.Reaches s s') (hstuck : M.Stuck s') : Q s' := by
  obtain ⟨is, hv, rfl⟩ := hr
  exact h.final is hv hstuck

end

end Machine
end Unpvol1
