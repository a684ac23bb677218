/-!
# Lib.Watch

Readiness notification. A `Watch` stands for one source of events that somebody waits for: `ready`
says that it is in line to be reported.

* `signal` — something has happened at the source. `report` — the waiter is told: an edge-triggered
  watch leaves the line, a level-triggered one stays in it as long as there is something to read.
* `Covers w readable busy` — what is readable is in line, or the waiter was told and still attends
  to it. Only an edge-triggered watch needs the latter.
* `Covers.leave` — the waiter may turn away from a source that is level-triggered or read empty.
-/

namespace Unpvol1

inductive Trigger where
  | level
  | edge
deriving DecidableEq

structure Watch where
  trigger : Trigger
  ready : Bool
deriving DecidableEq

namespace Watch

/-- A source that is readable when it is added goes in line at once. -/
def add (t : Trigger) (readable : Bool) : Watch := ⟨t, readable⟩

def signal (w : Watch) : Watch := { w with ready := true }

def report (w : Watch) : Watch :=
  match w.trigger with
  | .level => w
  | .edge => { w with ready := false }

@[simp] theorem add_trigger (t : Trigger) (r : Bool) : (add t r).trigger = t := rfl
@[simp] theorem add_ready (t : Trigger) (r : Bool) : (add t r).ready = r := rfl
@[simp] theorem signal_trigger (w : Watch) : w.signal.trigger = w.trigger := rfl
@[simp] theorem signal_ready (w : Watch) : w.signal.ready = true := rfl

@[simp] theorem report_trigger (w : Watch) : w.report.trigger = w.trigger := by
  unfold report
  split <;> rfl

theorem report_level {w : Watch} (h : w.trigger = .level) : w.report = w := by
  simp only [report, h]

theorem report_edge {w : Watch} (h : w.trigger = .edge) : w.report.ready = false := by
  simp only [report, h]

def Covers (w : Watch) (readable busy : Prop) : Prop :=
  readable → w.ready = true ∨ (w.trigger = .edge ∧ busy)

section
variable {w : Watch} {readable readable' busy busy' : Prop}

theorem Covers.mono (h : w.Covers readable busy) (hr : readable' → readable)
    (hb : busy → busy') : w.Covers readable' busy' := by
  intro hreadable
  rcases h (hr hreadable) with hready | ⟨hedge, hbusy⟩
  · exact .inl hready
  · exact .inr ⟨hedge, hb hbusy⟩

theorem signal_covers : w.signal.Covers readable busy := fun _ => .inl rfl

/-- Whoever is told of a source attends to it from now on. -/
theorem Covers.report (h : w.Covers readable busy) (hb : busy') :
    w.report.Covers readable busy' := by
  intro hreadable
  cases ht : w.trigger with
  | level =>
    refine .inl ?_
    rw [report_level ht]
    exact (h hreadable).resolve_right fun hedge => by simp [ht] at hedge
  | edge => exact .inr ⟨(report_trigger w).trans ht, hb⟩

theorem Covers.leave (h : w.Covers readable busy) (hl : w.trigger = .edge → ¬readable) :
    w.Covers readable busy' := by
  intro hreadable
  rcases h hreadable with hready | ⟨hedge, _⟩
  · exact .inl hready
  · exact absurd hreadable (hl hedge)

/-- Nothing in line, nobody attending: nothing to read. -/
theorem Covers.quiet (h : w.Covers readable busy) (hb : ¬busy)
    (hq : ¬(w.ready = true ∧ readable)) : ¬readable := by
  intro hreadable
  rcases h hreadable with hready | ⟨_, hbusy⟩
  · exact hq ⟨hready, hreadable⟩
  · exact hb hbusy

end

end Watch
end Unpvol1
