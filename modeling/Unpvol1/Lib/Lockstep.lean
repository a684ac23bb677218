import Unpvol1.Lib.Machine

/-!
# Lib.Lockstep

What can be seen of a run of a machine, and states that nothing seen of a run tells apart.

* `trace out s is` — what is seen of each step of a run.
* `trace_eq`       — states in a relation that every step keeps, and under which the same may
  happen and the same is seen, have the same runs and the same traces.
-/

namespace Unpvol1
namespace Machine

section
variable {σ ι ω : Type} {M : Machine σ ι}

def trace (M : Machine σ ι) (out : σ → ι → ω) : σ → List ι → List ω
  | _, [] => []
  | s, i :: is => out s i :: trace M out (M.step s i) is

/-- By induction on the run. -/
theorem trace_eq {out : σ → ι → ω} {R : σ → σ → Prop}
    (hstep : ∀ s t i, R s t → M.ok s i →
      M.ok t i ∧ out s i = out t i ∧ R (M.step s i) (M.step t i))
    {s t : σ} {is : List ι} (hst : R s t) (hv : M.Valid s is) :
    M.Valid t is ∧ M.trace out s is = M.trace out t is := by
  induction is generalizing s t with
  | nil => exact ⟨trivial, rfl⟩
  | cons i is ih =>
    obtain ⟨hi, hrest⟩ := hv
    obtain ⟨hok, hout, hnext⟩ := hstep s t i hst hi
    obtain ⟨hv', htrace⟩ := ih hnext hrest
    refine ⟨⟨hok, hv'⟩, ?_⟩
    simp only [trace]
    rw [hout, htrace]

end

end Machine
end Unpvol1
