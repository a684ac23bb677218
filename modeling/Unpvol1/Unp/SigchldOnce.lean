import Unpvol1.Unp.SigchldHandler

/-!
# Unp.SigchldOnce

The third version of the concurrent server (`5chp/v3/server.c`). It differs from `5chp/server.c` in
the handler, which calls `wait` once where that one calls `waitpid` until there is nothing left to
wait for. Signals that come while one is pending are lost, and a `wait` with them.

* `left`         — what is made of each step that makes the waits and the zombies differ.
* `zombies_left` — how many zombies there are, whenever all is quiet.
-/

namespace Unpvol1
namespace SigchldOnce

open SigchldHandler (State Handler Event Quiet start)

/-- The rest of the handler. -/
def print (s : State) : State :=
  match s.handler with
  | .print pid => { s with printed := s.printed ++ [pid], handler := .leave }
  | _ => s

def step (s : State) : Event → State
  | .print => print s
  | e => SigchldHandler.step s e

/-- `wait` waits for a child to terminate, and returns -1 only if there is none. -/
def ok (s : State) : Event → Prop
  | .waitpid none => s.handler = .waitpid ∧ s.zombies = [] ∧ s.running = []
  | e => SigchldHandler.ok s e

instance (s : State) : (e : Event) → Decidable (ok s e)
  | .waitpid none => inferInstanceAs (Decidable (s.handler = .waitpid ∧ s.zombies = [] ∧
      s.running = []))
  | .waitpid (some pid) => inferInstanceAs (Decidable (SigchldHandler.ok s (.waitpid (some pid))))
  | .accept infd => inferInstanceAs (Decidable (SigchldHandler.ok s (.accept infd)))
  | .fork pid => inferInstanceAs (Decidable (SigchldHandler.ok s (.fork pid)))
  | .close => inferInstanceAs (Decidable (SigchldHandler.ok s .close))
  | .exit pid => inferInstanceAs (Decidable (SigchldHandler.ok s (.exit pid)))
  | .sigchld => inferInstanceAs (Decidable (SigchldHandler.ok s .sigchld))
  | .deliver => inferInstanceAs (Decidable (SigchldHandler.ok s .deliver))
  | .print => inferInstanceAs (Decidable (SigchldHandler.ok s .print))
  | .leave => inferInstanceAs (Decidable (SigchldHandler.ok s .leave))

def machine : Machine State Event := ⟨step, ok⟩

instance (s : State) (e : Event) : Decidable (machine.ok s e) :=
  inferInstanceAs (Decidable (ok s e))

/-- A child that terminates while a signal is pending is not announced; a signal for another reason
has the handler wait for a child it was not sent for; and with no child there is nothing to wait
for. -/
def left (n : Int) (s : State) : Event → Int
  | .exit _ => if s.pending = true then n + 1 else n
  | .sigchld => if s.pending = true then n else n - 1
  | .waitpid none => n + 1
  | _ => n

def calls : Handler → Int
  | .waitpid => 1
  | _ => 0

/-- The calls of `wait` to come. -/
def waits (s : State) : Int := s.pending.toNat + calls s.handler

/-- Each call of `wait` to come is for one zombie, but for `n`. -/
def Owed (s : State) (n : Int) : Prop := s.zombies.length = n + waits s

section
variable {s : State} {n : Int}

theorem Owed.congr {s' : State} (h : Owed s n) (hz : s'.zombies = s.zombies)
    (hp : s'.pending = s.pending) (hh : calls s'.handler = calls s.handler) : Owed s' n := by
  rw [Owed, waits, hz, hp, hh]
  exact h

/-- One case for each event; `main` moves nothing the equation is about. -/
theorem owed_step {e : Event} (h : Owed s n) (hok : machine.ok s e) :
    Owed (machine.step s e) (left n s e) := by
  have heq : (s.zombies.length : Int) = n + (s.pending.toNat + calls s.handler) := h
  cases e with
  | accept infd =>
    cases infd with
    | none => exact h.congr rfl rfl rfl
    | some infd => exact h.congr rfl rfl rfl
  | fork pid =>
    show Owed (SigchldHandler.fork pid s) n
    unfold SigchldHandler.fork
    split
    · exact h.congr rfl rfl rfl
    · exact h.congr rfl rfl rfl
    · exact h
  | close => exact h.congr rfl rfl rfl
  | exit pid =>
    show ((pid :: s.zombies).length : Int) = (if s.pending = true then n + 1 else n) +
      ((true.toNat : Nat) + calls s.handler)
    rw [List.length_cons]
    cases hp : s.pending with
    | true =>
      rw [hp] at heq
      rw [if_pos rfl]
      omega
    | false =>
      rw [hp] at heq
      rw [if_neg Bool.false_ne_true]
      have hzero : false.toNat = 0 := rfl
      have hone : true.toNat = 1 := rfl
      omega
  | sigchld =>
    show (s.zombies.length : Int) = (if s.pending = true then n else n - 1) +
      ((true.toNat : Nat) + calls s.handler)
    cases hp : s.pending with
    | true =>
      rw [hp] at heq
      rw [if_pos rfl]
      exact heq
    | false =>
      rw [hp] at heq
      rw [if_neg Bool.false_ne_true]
      have hzero : false.toNat = 0 := rfl
      have hone : true.toNat = 1 := rfl
      omega
  | deliver =>
    obtain ⟨_, hp, hidle⟩ := hok
    rw [hp, hidle] at heq
    exact heq
  | waitpid pid =>
    cases pid with
    | some pid =>
      obtain ⟨hh, hmem⟩ := hok
      rw [hh] at heq
      have hpos := List.length_pos_of_mem hmem
      have hlen := List.length_erase_of_mem hmem
      have hcalls : calls .waitpid = 1 := rfl
      have hprint : calls (.print pid) = 0 := rfl
      show ((s.zombies.erase pid).length : Int) = n + (s.pending.toNat + calls (.print pid))
      omega
    | none =>
      have hh : s.handler = .waitpid := hok.1
      rw [hh] at heq
      have hcalls : calls .waitpid = 1 := rfl
      have hleave : calls .leave = 0 := rfl
      show (s.zombies.length : Int) = n + 1 + (s.pending.toNat + calls .leave)
      omega
  | print =>
    show Owed (print s) n
    unfold print
    split
    · rename_i pid hh
      exact h.congr rfl rfl (by rw [hh]; rfl)
    · exact h
  | leave =>
    have hh : s.handler = .leave := hok
    exact h.congr rfl rfl (by rw [hh]; rfl)

/-- Whenever all is quiet there are as many zombies as children terminated while a signal was
pending, less the signals that came for another reason, but for those that found no child. -/
theorem zombies_left (es : List Event) (hv : machine.Valid start es)
    (hq : Quiet (machine.run start es)) :
    ((machine.run start es).zombies.length : Int) = machine.tally left start 0 es := by
  have h := Machine.run_tally (M := machine) (f := left) (I := Owed)
    (fun _ _ _ h hok => owed_step h hok) (show Owed start 0 from rfl) hv
  obtain ⟨hp, hidle⟩ := hq
  generalize machine.run start es = s at *
  have heq : (s.zombies.length : Int) = machine.tally left start 0 es +
    (s.pending.toNat + calls s.handler) := h
  rw [hp, hidle] at heq
  have hzero : (false.toNat : Int) + calls .idle = 0 := rfl
  rw [hzero, Int.add_zero] at heq
  exact heq

end

/-- Three children terminate before the handler runs, and two of them are not waited for. -/
def threeChildren : List Event :=
  [.accept (some 4), .fork (some 11), .close, .accept (some 4), .fork (some 12), .close,
    .accept (some 4), .fork (some 13), .close, .exit 12, .exit 11, .exit 13, .deliver,
    .waitpid (some 11), .print, .leave]

theorem zombies_left_three :
    ((machine.run start threeChildren).zombies.length : Int) =
      machine.tally left start 0 threeChildren :=
  zombies_left threeChildren (by decide) ⟨by decide, by decide⟩

end SigchldOnce
end Unpvol1
