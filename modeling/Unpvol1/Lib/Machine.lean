import Mathlib.Data.List.Basic

/-!
# Lib.Machine

Input-driven machines. A `Machine` is a total step function on states together with the inputs
its environment may offer in a state (`ok`). A run is a list of inputs.

* `Valid M s is`    — every input of `is` is one the environment may offer where it is taken.
* `Always M P s is` — `P` holds in `s` and in every state the run passes through.
* `Each M Q s is`   — `Q` holds of every step (state and input) of the run.

* `tally f s b is`  — what is made of `b` by an account `f` that is kept along the run.

`always_inv`, `each_inv` and `run_inv` are the invariant rules; `run_tally` is the one for a state
and an account of the run up to it. `always_iff_each` turns the exact
condition for one step into the exact condition for whole runs, `always_and_each_iff` the same where
the steps have a property of their own, and `each_of_always` reads a property of the steps off a
property of the states.
-/

namespace Unpvol1

structure Machine (σ ι : Type) where
  step : σ → ι → σ
  ok : σ → ι → Prop

namespace Machine

section
variable {σ ι : Type} {M : Machine σ ι}

def run (M : Machine σ ι) (s : σ) (is : List ι) : σ := is.foldl M.step s

def Valid (M : Machine σ ι) : σ → List ι → Prop
  | _, [] => True
  | s, i :: is => M.ok s i ∧ Valid M (M.step s i) is

def Always (M : Machine σ ι) (P : σ → Prop) : σ → List ι → Prop
  | s, [] => P s
  | s, i :: is => P s ∧ Always M P (M.step s i) is

def Each (M : Machine σ ι) (Q : σ → ι → Prop) : σ → List ι → Prop
  | _, [] => True
  | s, i :: is => Q s i ∧ Each M Q (M.step s i) is

def tally {β : Type} (M : Machine σ ι) (f : β → σ → ι → β) : σ → β → List ι → β
  | _, b, [] => b
  | s, b, i :: is => tally M f (M.step s i) (f b s i) is

instance decidableValid [∀ s i, Decidable (M.ok s i)] :
    (s : σ) → (is : List ι) → Decidable (M.Valid s is)
  | _, [] => inferInstanceAs (Decidable True)
  | s, i :: is =>
    have := decidableValid (M.step s i) is
    inferInstanceAs (Decidable (M.ok s i ∧ M.Valid (M.step s i) is))

instance decidableEach {Q : σ → ι → Prop} [∀ s i, Decidable (Q s i)] :
    (s : σ) → (is : List ι) → Decidable (M.Each Q s is)
  | _, [] => inferInstanceAs (Decidable True)
  | s, i :: is =>
    have := decidableEach (Q := Q) (M.step s i) is
    inferInstanceAs (Decidable (Q s i ∧ M.Each Q (M.step s i) is))

@[simp] theorem run_nil (s : σ) : M.run s [] = s := rfl

@[simp] theorem run_cons (s : σ) (i : ι) (is : List ι) :
    M.run s (i :: is) = M.run (M.step s i) is := rfl

theorem run_append (s : σ) (is js : List ι) : M.run s (is ++ js) = M.run (M.run s is) js :=
  List.foldl_append

theorem valid_append {s : σ} {is js : List ι} :
    M.Valid s (is ++ js) ↔ M.Valid s is ∧ M.Valid (M.run s is) js := by
  induction is generalizing s with
  | nil => simp [Valid]
  | cons i is ih => simp [Valid, ih, and_assoc]

/-- Where the environment may do anything at any time. -/
theorem valid_of_ok (h : ∀ s i, M.ok s i) (s : σ) (is : List ι) : M.Valid s is := by
  induction is generalizing s with
  | nil => trivial
  | cons i is ih => exact ⟨h s i, ih (M.step s i)⟩

theorem each_append {Q : σ → ι → Prop} {s : σ} {is js : List ι} :
    M.Each Q s (is ++ js) ↔ M.Each Q s is ∧ M.Each Q (M.run s is) js := by
  induction is generalizing s with
  | nil => simp [Each]
  | cons i is ih => simp [Each, ih, and_assoc]

/-- `Each` speaks of every step of the run, in the state that the steps before it lead to. -/
theorem each_iff_split {Q : σ → ι → Prop} {s : σ} {is : List ι} :
    M.Each Q s is ↔ ∀ xs i ys, is = xs ++ i :: ys → Q (M.run s xs) i := by
  constructor
  · rintro h xs i ys rfl
    exact (each_append.mp h).2.1
  · intro h
    induction is generalizing s with
    | nil => trivial
    | cons i is ih =>
      refine ⟨h [] i is rfl, ih fun xs j ys he => ?_⟩
      exact h (i :: xs) j ys (congrArg (i :: ·) he)

/-- `Always` speaks of the state after every prefix of the run. -/
theorem always_iff_initial {P : σ → Prop} {s : σ} {is : List ι} :
    M.Always P s is ↔ ∀ js, js <+: is → P (M.run s js) := by
  induction is generalizing s with
  | nil => simp [Always]
  | cons i is ih =>
    simp only [Always, ih]
    constructor
    · rintro ⟨hs, hrest⟩ js hjs
      cases js with
      | nil => exact hs
      | cons j js =>
        obtain ⟨rfl, htail⟩ := List.cons_prefix_cons.mp hjs
        exact hrest js htail
    · intro h
      exact ⟨h [] (by simp), fun js hjs => h (i :: js) (by simpa using hjs)⟩

theorem Always.last {P : σ → Prop} {s : σ} {is : List ι} (h : M.Always P s is) :
    P (M.run s is) :=
  always_iff_initial.mp h is (List.prefix_refl is)

theorem Always.imp {P P' : σ → Prop} {s : σ} {is : List ι} (hPP : ∀ s, P s → P' s)
    (h : M.Always P s is) : M.Always P' s is :=
  always_iff_initial.mpr fun js hjs => hPP _ (always_iff_initial.mp h js hjs)

/-- The invariant rule. -/
theorem always_inv {I : σ → Prop} (hstep : ∀ s i, I s → M.ok s i → I (M.step s i)) {s : σ}
    {is : List ι} (hs : I s) (hv : M.Valid s is) : M.Always I s is := by
  induction is generalizing s with
  | nil => exact hs
  | cons i is ih => exact ⟨hs, ih (hstep s i hs hv.1) hv.2⟩

/-- The invariant rule for runs all of whose steps satisfy `Q`. -/
theorem always_inv_of_each {I : σ → Prop} {Q : σ → ι → Prop}
    (hstep : ∀ s i, I s → M.ok s i → Q s i → I (M.step s i)) {s : σ} {is : List ι} (hs : I s)
    (hv : M.Valid s is) (hq : M.Each Q s is) : M.Always I s is := by
  induction is generalizing s with
  | nil => exact hs
  | cons i is ih => exact ⟨hs, ih (hstep s i hs hv.1 hq.1) hv.2 hq.2⟩

theorem each_inv {I : σ → Prop} {Q : σ → ι → Prop}
    (hstep : ∀ s i, I s → M.ok s i → I (M.step s i)) (hQ : ∀ s i, I s → M.ok s i → Q s i) {s : σ}
    {is : List ι} (hs : I s) (hv : M.Valid s is) : M.Each Q s is := by
  induction is generalizing s with
  | nil => exact trivial
  | cons i is ih => exact ⟨hQ s i hs hv.1, ih (hstep s i hs hv.1) hv.2⟩

theorem run_inv {I : σ → Prop} (hstep : ∀ s i, I s → M.ok s i → I (M.step s i)) {s : σ}
    {is : List ι} (hs : I s) (hv : M.Valid s is) : I (M.run s is) :=
  (always_inv hstep hs hv).last

theorem run_tally {β : Type} {f : β → σ → ι → β} {I : σ → β → Prop}
    (hstep : ∀ s b i, I s b → M.ok s i → I (M.step s i) (f b s i)) {s : σ} {b : β} {is : List ι}
    (hs : I s b) (hv : M.Valid s is) : I (M.run s is) (M.tally f s b is) := by
  induction is generalizing s b with
  | nil => exact hs
  | cons i is ih => exact ih (hstep s b i hs hv.1) hv.2

/-- When `Q` is exactly what a step needs to keep `P`, a run stays in `P` just when each of its
steps satisfies `Q`. -/
theorem always_iff_each {I P : σ → Prop} {Q : σ → ι → Prop}
    (hI : ∀ s i, I s → M.ok s i → I (M.step s i))
    (hP : ∀ s i, I s → M.ok s i → P s → (P (M.step s i) ↔ Q s i)) {s : σ} {is : List ι}
    (hs : I s) (hPs : P s) (hv : M.Valid s is) : M.Always P s is ↔ M.Each Q s is := by
  induction is generalizing s with
  | nil => simp [Always, Each, hPs]
  | cons i is ih =>
    constructor
    · rintro ⟨_, hrest⟩
      have hPi : P (M.step s i) := always_iff_initial.mp hrest [] (by simp)
      exact ⟨(hP s i hs hv.1 hPs).mp hPi, (ih (hI s i hs hv.1) hPi hv.2).mp hrest⟩
    · rintro ⟨hQ, hrest⟩
      have hPi : P (M.step s i) := (hP s i hs hv.1 hPs).mpr hQ
      exact ⟨hPs, (ih (hI s i hs hv.1) hPi hv.2).mpr hrest⟩

/-- The same with an invariant that holds as long as `P` does. -/
theorem always_iff_each_of {I P : σ → Prop} {Q : σ → ι → Prop}
    (hP : ∀ s i, I s → M.ok s i → P s → (P (M.step s i) ↔ Q s i))
    (hI : ∀ s i, I s → M.ok s i → P s → P (M.step s i) → I (M.step s i)) {s : σ} {is : List ι}
    (hs : I s) (hPs : P s) (hv : M.Valid s is) : M.Always P s is ↔ M.Each Q s is := by
  induction is generalizing s with
  | nil => simp [Always, Each, hPs]
  | cons i is ih =>
    have hiff := hP s i hs hv.1 hPs
    constructor
    · rintro ⟨_, hrest⟩
      have hPi : P (M.step s i) := always_iff_initial.mp hrest [] (by simp)
      exact ⟨hiff.mp hPi, (ih (hI s i hs hv.1 hPs hPi) hPi hv.2).mp hrest⟩
    · rintro ⟨hQ, hrest⟩
      have hPi : P (M.step s i) := hiff.mpr hQ
      exact ⟨hPs, (ih (hI s i hs hv.1 hPs hPi) hPi hv.2).mpr hrest⟩

/-- When `Q` is exactly what a step needs to keep `P` and to satisfy `R`. -/
theorem always_and_each_iff {I P : σ → Prop} {R Q : σ → ι → Prop}
    (hI : ∀ s i, I s → M.ok s i → I (M.step s i))
    (hP : ∀ s i, I s → M.ok s i → P s → (P (M.step s i) ∧ R s i ↔ Q s i)) {s : σ} {is : List ι}
    (hs : I s) (hPs : P s) (hv : M.Valid s is) :
    M.Always P s is ∧ M.Each R s is ↔ M.Each Q s is := by
  induction is generalizing s with
  | nil => simp [Always, Each, hPs]
  | cons i is ih =>
    have hiff := hP s i hs hv.1 hPs
    constructor
    · rintro ⟨⟨_, hrest⟩, hR, hRrest⟩
      have hPi : P (M.step s i) := always_iff_initial.mp hrest [] (by simp)
      exact ⟨hiff.mp ⟨hPi, hR⟩, (ih (hI s i hs hv.1) hPi hv.2).mp ⟨hrest, hRrest⟩⟩
    · rintro ⟨hQ, hQrest⟩
      obtain ⟨hPi, hR⟩ := hiff.mpr hQ
      obtain ⟨hrest, hRrest⟩ := (ih (hI s i hs hv.1) hPi hv.2).mpr hQrest
      exact ⟨⟨hPs, hrest⟩, hR, hRrest⟩

theorem each_of_always {I P : σ → Prop} {Q : σ → ι → Prop}
    (hI : ∀ s i, I s → M.ok s i → I (M.step s i)) (hQ : ∀ s i, I s → M.ok s i → P s → Q s i)
    {s : σ} {is : List ι} (hs : I s) (hv : M.Valid s is) (ha : M.Always P s is) :
    M.Each Q s is := by
  induction is generalizing s with
  | nil => exact trivial
  | cons i is ih => exact ⟨hQ s i hs hv.1 ha.1, ih (hI s i hs hv.1) hv.2 ha.2⟩

/-- Two conditions on steps that agree wherever the invariant holds agree on runs. -/
theorem each_iff {I : σ → Prop} {Q Q' : σ → ι → Prop}
    (hI : ∀ s i, I s → M.ok s i → I (M.step s i))
    (hQ : ∀ s i, I s → M.ok s i → (Q s i ↔ Q' s i)) {s : σ} {is : List ι} (hs : I s)
    (hv : M.Valid s is) : M.Each Q s is ↔ M.Each Q' s is := by
  induction is generalizing s with
  | nil => simp [Each]
  | cons i is ih => simp only [Each, hQ s i hs hv.1, ih (hI s i hs hv.1) hv.2]

end

end Machine
end Unpvol1
