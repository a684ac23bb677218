import Unpvol1.Lib.Machine

/-!
# Unp.SigchldHandler

The concurrent server of chapter 5 (`5chp/server.c`): `main` forks a child for each connection, and
`sigchld_handler` waits for those that have terminated. The steps of `main`, the children, the
signal and the handler interleave; `SIGCHLD` is one flag, and is blocked while the handler runs.

* `step`      — one call of `main` or of the handler, or what a child or the kernel does.
* `Announced` — a zombie has a signal pending, or a handler that will still call `waitpid`.
* `quiet_noZombie` — in every run.
-/

namespace Unpvol1
namespace SigchldHandler

/-- Where `main` is. -/
inductive Pc where
  | accept
  | fork (infd : Nat)
  | close (infd : Nat)
  | exited
deriving DecidableEq

/-- Where `sigchld_handler` is, if it runs. -/
inductive Handler where
  | idle
  | waitpid
  | print (pid : Nat)
  | leave
deriving DecidableEq

/-- `pending` is the one `SIGCHLD` that can be pending; `printed` is what the handler wrote. -/
structure State where
  pc : Pc
  handler : Handler
  pending : Bool
  running : List Nat
  zombies : List Nat
  printed : List Nat
deriving DecidableEq

inductive Event where
  /-- The descriptor, or a failure. -/
  | accept (infd : Option Nat)
  /-- The child's pid, or a failure. -/
  | fork (pid : Option Nat)
  | close
  /-- A child terminates. -/
  | exit (pid : Nat)
  /-- A `SIGCHLD` for another reason: a child was stopped, or somebody sent it. -/
  | sigchld
  | deliver
  /-- The pid, or a result that is not positive. -/
  | waitpid (pid : Option Nat)
  | print
  /-- The handler returns. -/
  | leave

def fork (pid : Option Nat) (s : State) : State :=
  match s.pc, pid with
  | .fork _, none => { s with pc := .exited }
  | .fork infd, some pid => { s with pc := .close infd, running := pid :: s.running }
  | _, _ => s

/-- The body of the handler's loop. -/
def print (s : State) : State :=
  match s.handler with
  | .print pid => { s with printed := s.printed ++ [pid], handler := .waitpid }
  | _ => s

def step (s : State) : Event → State
  | .accept none => { s with pc := .exited }
  | .accept (some infd) => { s with pc := .fork infd }
  | .fork pid => fork pid s
  | .close => { s with pc := .accept }
  | .exit pid =>
    { s with running := s.running.erase pid, zombies := pid :: s.zombies, pending := true }
  | .sigchld => { s with pending := true }
  | .deliver => { s with pending := false, handler := .waitpid }
  | .waitpid (some pid) => { s with zombies := s.zombies.erase pid, handler := .print pid }
  | .waitpid none => { s with handler := .leave }
  | .print => print s
  | .leave => { s with handler := .idle }

def Pc.isFork : Pc → Bool
  | .fork _ => true
  | _ => false

def Pc.isClose : Pc → Bool
  | .close _ => true
  | _ => false

def Handler.isPrint : Handler → Bool
  | .print _ => true
  | _ => false

/-- `main` stands still while the handler runs. `waitpid` with `WNOHANG` finds any child that has
terminated, and returns 0 or -1 only if there is none. -/
def ok (s : State) : Event → Prop
  | .accept _ => s.pc = .accept ∧ s.handler = .idle
  | .fork none => s.pc.isFork = true ∧ s.handler = .idle
  | .fork (some pid) => s.pc.isFork = true ∧ s.handler = .idle ∧ 0 < pid ∧
      pid ∉ s.running ∧ pid ∉ s.zombies
  | .close => s.pc.isClose = true ∧ s.handler = .idle
  | .exit pid => s.pc ≠ .exited ∧ pid ∈ s.running
  | .sigchld => s.pc ≠ .exited
  | .deliver => s.pc ≠ .exited ∧ s.pending = true ∧ s.handler = .idle
  | .waitpid (some pid) => s.handler = .waitpid ∧ pid ∈ s.zombies
  | .waitpid none => s.handler = .waitpid ∧ s.zombies = []
  | .print => s.handler.isPrint = true
  | .leave => s.handler = .leave

instance (s : State) : (e : Event) → Decidable (ok s e)
  | .accept _ => inferInstanceAs (Decidable (s.pc = .accept ∧ s.handler = .idle))
  | .fork none => inferInstanceAs (Decidable (s.pc.isFork = true ∧ s.handler = .idle))
  | .fork (some pid) => inferInstanceAs (Decidable (s.pc.isFork = true ∧ s.handler = .idle ∧
      0 < pid ∧ pid ∉ s.running ∧ pid ∉ s.zombies))
  | .close => inferInstanceAs (Decidable (s.pc.isClose = true ∧ s.handler = .idle))
  | .exit pid => inferInstanceAs (Decidable (s.pc ≠ .exited ∧ pid ∈ s.running))
  | .sigchld => inferInstanceAs (Decidable (s.pc ≠ .exited))
  | .deliver => inferInstanceAs (Decidable (s.pc ≠ .exited ∧ s.pending = true ∧
      s.handler = .idle))
  | .waitpid (some pid) => inferInstanceAs (Decidable (s.handler = .waitpid ∧ pid ∈ s.zombies))
  | .waitpid none => inferInstanceAs (Decidable (s.handler = .waitpid ∧ s.zombies = []))
  | .print => inferInstanceAs (Decidable (s.handler.isPrint = true))
  | .leave => inferInstanceAs (Decidable (s.handler = .leave))

def machine : Machine State Event := ⟨step, ok⟩

instance (s : State) (e : Event) : Decidable (machine.ok s e) :=
  inferInstanceAs (Decidable (ok s e))

/-- After `signal`, before the first `accept`. -/
def start : State where
  pc := .accept
  handler := .idle
  pending := false
  running := []
  zombies := []
  printed := []

/-- The handler will call `waitpid` once more. -/
def Handler.looks : Handler → Prop
  | .waitpid => True
  | .print _ => True
  | _ => False

/-- Where there is a zombie, a signal is pending or the handler will still look for it. -/
def Announced (s : State) : Prop := s.zombies ≠ [] → s.pending = true ∨ s.handler.looks

/-- No `SIGCHLD` is pending, and the handler is not running. -/
def Quiet (s : State) : Prop := s.pending = false ∧ s.handler = .idle

section
variable {s : State}

theorem Announced.noZombie (h : Announced s) (hq : Quiet s) : s.zombies = [] := by
  by_contra hz
  rcases h hz with hp | hl
  · rw [hq.1] at hp
    cases hp
  · rw [hq.2] at hl
    exact hl

/-- What `main` does leaves the children that have terminated, the signal and the handler alone. -/
theorem announced_congr {s' : State} (hz : s'.zombies = s.zombies) (hp : s'.pending = s.pending)
    (hh : s'.handler = s.handler) : Announced s' ↔ Announced s := by
  rw [Announced, Announced, hz, hp, hh]

theorem step_announced (h : Announced s) {e : Event} (hok : ok s e) : Announced (step s e) := by
  cases e with
  | accept infd =>
    cases infd with
    | none => exact (announced_congr rfl rfl rfl).mpr h
    | some infd => exact (announced_congr rfl rfl rfl).mpr h
  | fork pid =>
    show Announced (fork pid s)
    unfold fork
    split
    · exact (announced_congr rfl rfl rfl).mpr h
    · exact (announced_congr rfl rfl rfl).mpr h
    · exact h
  | close => exact (announced_congr rfl rfl rfl).mpr h
  | exit pid => exact fun _ => .inl rfl
  | sigchld => exact fun _ => .inl rfl
  | deliver => exact fun _ => .inr trivial
  | waitpid pid =>
    cases pid with
    | some pid => exact fun _ => .inr trivial
    | none => exact fun hz => absurd hok.2 hz
  | print =>
    -- the handler goes round its loop
    show Announced (print s)
    unfold print
    split
    · exact fun _ => .inr trivial
    · exact h
  | leave =>
    -- it left the loop with nothing to wait for; who terminated since has announced it
    intro hz
    have hleave : s.handler = .leave := hok
    rcases h hz with hp | hl
    · exact .inl hp
    · rw [hleave] at hl
      exact hl.elim

/-- For every order of forks, exits, deliveries and calls of `waitpid`: when all is quiet, no child
has terminated without being waited for. -/
theorem quiet_noZombie (es : List Event) (hv : machine.Valid start es) :
    machine.Always (fun s => Quiet s → s.zombies = []) start es :=
  (Machine.always_inv (I := Announced) (fun _ _ h hok => step_announced h hok)
    (fun hz => absurd rfl hz) hv).imp fun _ h hq => h.noZombie hq

end

/-- Two children terminate before the handler runs, a third while it prints, a fourth when it has
left its loop. -/
def fourChildren : List Event :=
  [.accept (some 4), .fork (some 11), .close, .accept (some 4), .fork (some 12), .close,
    .accept (some 4), .fork (some 13), .exit 11, .close, .accept (some 4), .fork (some 14),
    .exit 12, .deliver, .waitpid (some 12), .exit 13, .print, .waitpid (some 13), .print,
    .waitpid (some 11), .print, .waitpid none, .exit 14, .leave, .deliver, .waitpid (some 14),
    .print, .waitpid none, .leave, .close]

theorem quiet_noZombie_fourChildren :
    machine.Always (fun s => Quiet s → s.zombies = []) start fourChildren :=
  quiet_noZombie fourChildren (by decide)

end SigchldHandler
end Unpvol1
