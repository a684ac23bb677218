import Mathlib.Logic.Function.Basic
import Unpvol1.Lib.Socket

/-!
# Lib.Kernel

The part of the kernel's state a single-process event loop depends on: which descriptors are open,
what one epoll instance has registered for each, and what has passed over each descriptor since it
was opened. The registered mask is a type parameter.

* `openFd` — `socket` or `accept` handing out a descriptor; the environment may hand out any
  descriptor that is `Fresh`, so numbers are reused after `close`.
* `ctlAdd`, `ctlMod`, `ctlDel` — `epoll_ctl`, which fails and changes nothing on a descriptor that
  is already registered, or not registered.
* `close` — also removes the descriptor from the epoll instance.
-/

namespace Unpvol1

/-- What has passed over a descriptor since it was opened. -/
structure FdLog where
  received : List UInt8
  accepted : List UInt8
  failed : Bool
  deriving DecidableEq, Repr

def FdLog.empty : FdLog := ⟨[], [], false⟩

structure Kernel (μ : Type) where
  opened : Int → Bool
  interest : Int → Option μ
  log : Int → FdLog

namespace Kernel

variable {μ : Type}

/-- A descriptor `socket` or `accept` may return. -/
def Fresh (k : Kernel μ) (fd : Int) : Prop := 0 ≤ fd ∧ k.opened fd = false

instance (k : Kernel μ) (fd : Int) : Decidable (k.Fresh fd) := by
  unfold Fresh; infer_instance

def openFd (fd : Int) (k : Kernel μ) : Kernel μ where
  opened := Function.update k.opened fd true
  interest := Function.update k.interest fd none
  log := Function.update k.log fd .empty

def close (fd : Int) (k : Kernel μ) : Kernel μ :=
  { k with
    opened := Function.update k.opened fd false
    interest := Function.update k.interest fd none }

def ctlAdd (fd : Int) (ev : μ) (k : Kernel μ) : Kernel μ :=
  if k.opened fd = true ∧ (k.interest fd).isNone = true then
    { k with interest := Function.update k.interest fd (some ev) }
  else k

def ctlMod (fd : Int) (ev : μ) (k : Kernel μ) : Kernel μ :=
  if (k.interest fd).isSome = true then
    { k with interest := Function.update k.interest fd (some ev) }
  else k

def ctlDel (fd : Int) (k : Kernel μ) : Kernel μ :=
  { k with interest := Function.update k.interest fd none }

/-- Account for the calls a handler made. -/
def record (cs : List Call) (k : Kernel μ) : Kernel μ :=
  { k with
    log := fun fd =>
      ⟨(k.log fd).received ++ Unpvol1.received fd cs, (k.log fd).accepted ++ Unpvol1.accepted fd cs,
        (k.log fd).failed || Unpvol1.failed fd cs⟩ }

section
variable (k : Kernel μ) (fd : Int) (ev : μ) (cs : List Call)

@[simp] theorem openFd_opened : (k.openFd fd).opened = Function.update k.opened fd true := rfl
@[simp] theorem openFd_interest :
    (k.openFd fd).interest = Function.update k.interest fd none := rfl
@[simp] theorem openFd_log : (k.openFd fd).log = Function.update k.log fd .empty := rfl

@[simp] theorem close_opened : (k.close fd).opened = Function.update k.opened fd false := rfl
@[simp] theorem close_interest :
    (k.close fd).interest = Function.update k.interest fd none := rfl
@[simp] theorem close_log : (k.close fd).log = k.log := rfl

@[simp] theorem ctlAdd_opened : (k.ctlAdd fd ev).opened = k.opened := by
  unfold ctlAdd; split <;> rfl
@[simp] theorem ctlAdd_log : (k.ctlAdd fd ev).log = k.log := by
  unfold ctlAdd; split <;> rfl

@[simp] theorem ctlMod_opened : (k.ctlMod fd ev).opened = k.opened := by
  unfold ctlMod; split <;> rfl
@[simp] theorem ctlMod_log : (k.ctlMod fd ev).log = k.log := by
  unfold ctlMod; split <;> rfl

@[simp] theorem ctlDel_opened : (k.ctlDel fd).opened = k.opened := rfl
@[simp] theorem ctlDel_interest :
    (k.ctlDel fd).interest = Function.update k.interest fd none := rfl
@[simp] theorem ctlDel_log : (k.ctlDel fd).log = k.log := rfl

@[simp] theorem record_opened : (k.record cs).opened = k.opened := rfl
@[simp] theorem record_interest : (k.record cs).interest = k.interest := rfl

end

theorem ctlAdd_interest_of_ne (k : Kernel μ) {fd d : Int} (ev : μ) (h : d ≠ fd) :
    (k.ctlAdd fd ev).interest d = k.interest d := by
  unfold ctlAdd; split
  · simp [Function.update_of_ne h]
  · rfl

theorem ctlMod_interest_of_ne (k : Kernel μ) {fd d : Int} (ev : μ) (h : d ≠ fd) :
    (k.ctlMod fd ev).interest d = k.interest d := by
  unfold ctlMod; split
  · simp [Function.update_of_ne h]
  · rfl

/-- After `EPOLL_CTL_ADD` an open descriptor is registered, whether or not it was before. -/
theorem ctlAdd_isSome {k : Kernel μ} {fd : Int} (ev : μ) (h : k.opened fd = true) :
    ((k.ctlAdd fd ev).interest fd).isSome = true := by
  unfold ctlAdd
  split
  · simp
  · rename_i hn
    cases hi : k.interest fd with
    | none => simp [h, hi] at hn
    | some _ => rfl

theorem ctlMod_interest_self {k : Kernel μ} {fd : Int} (ev : μ)
    (h : (k.interest fd).isSome = true) : (k.ctlMod fd ev).interest fd = some ev := by
  simp [ctlMod, h]

/-- `EPOLL_CTL_ADD` and `EPOLL_CTL_MOD` only ever add registrations. -/
theorem ctlAdd_mono {k : Kernel μ} (fd : Int) (ev : μ) {d : Int}
    (h : (k.interest d).isSome = true) : ((k.ctlAdd fd ev).interest d).isSome = true := by
  unfold ctlAdd; split
  · by_cases hd : d = fd
    · subst hd; simp
    · simpa [Function.update_of_ne hd] using h
  · exact h

theorem ctlMod_mono {k : Kernel μ} (fd : Int) (ev : μ) {d : Int}
    (h : (k.interest d).isSome = true) : ((k.ctlMod fd ev).interest d).isSome = true := by
  unfold ctlMod; split
  · by_cases hd : d = fd
    · subst hd; simp
    · simpa [Function.update_of_ne hd] using h
  · exact h

end Kernel
end Unpvol1
