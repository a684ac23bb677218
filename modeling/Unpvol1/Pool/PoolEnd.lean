import Unpvol1.Lib.Progress
import Unpvol1.Lib.SelfPipe
import Unpvol1.Lib.Threads

/-!
# Pool.PoolEnd

How a process pool ends (`setup_sig_pipe`, `sig_handler` and the signals of `run_parent` and
`run_child` in `15-1processpool.h` and in springsnail's `processpool.h`, which are the same). A
SIGTERM or SIGINT has the parent send SIGTERM to each child; a child that gets it leaves its loop
and terminates; the SIGCHLD of that has the parent wait for it, and the parent leaves its loop when
all children have been waited for. Parent and children read their signals from a pipe of their own.

* `Inv`         — what the parent knows of its children.
* `ends_last`   — the parent goes last, and signals nobody but its children.
-/

namespace Unpvol1
namespace PoolEnd

inductive Signal where
  | sigchld
  | sigterm
  | sigint
deriving DecidableEq

/-- `sizeof( signals )` -/
def signalsSize : Nat := 1024

/-- Where a process is. -/
inductive Main where
  /-- Before `addsig`. -/
  | starting
  | looping
  /-- The parent, in its loop of `waitpid`. -/
  | reaping
  /-- The parent, before the `i`th child in its loop of `kill`. -/
  | killing (i : Nat)
  /-- Behind the loop. -/
  | ended
  /-- By the default action of a signal. -/
  | terminated
deriving DecidableEq

/-- The handlers are set, and the loop has not been left. -/
def Main.catches : Main → Bool
  | .looping => true
  | .reaping => true
  | .killing _ => true
  | _ => false

def Main.kills : Main → Bool
  | .killing _ => true
  | _ => false

/-- `stop` is `m_stop`. -/
structure Process where
  main : Main
  stop : Bool
  sig : SelfPipe Signal

namespace Process

/-- A signal is sent to the process. Before `addsig` SIGCHLD is ignored, the others terminate. -/
def raise (x : Signal) (p : Process) : Process :=
  match p.main, x with
  | .starting, .sigchld => p
  | .starting, _ => { p with main := .terminated }
  | _, _ => { p with sig := p.sig.raise x }

/-- What parent and child have in common. `deliver` is `sig_handler`, `test` the test of `m_stop`
that ends the loop. -/
inductive Local where
  | setup
  | deliver (x : Signal)
  | report
  | recv
  | test
deriving DecidableEq

def step (p : Process) : Local → Process
  | .setup => { p with main := .looping }
  | .deliver x => { p with sig := p.sig.deliver x }
  | .report => { p with sig := p.sig.report }
  | .recv => { p with sig := p.sig.recv signalsSize }
  | .test => { p with main := .ended }

def ok (p : Process) : Local → Prop
  | .setup => p.main = .starting
  | .deliver x => p.main.catches = true ∧ x ∈ p.sig.pending
  | .report => p.main = .looping ∧ p.stop = false ∧ p.sig.Idle ∧ p.sig.ready = true ∧
      p.sig.pipe.data.isEmpty = false
  | .recv => p.main = .looping ∧ p.sig.told = true ∧ p.sig.inHand.isEmpty = true
  | .test => p.main = .looping ∧ p.stop = true ∧ p.sig.Idle

instance (p : Process) : (l : Local) → Decidable (p.ok l)
  | .setup => inferInstanceAs (Decidable (_ = _))
  | .deliver _ => inferInstanceAs (Decidable (_ ∧ _))
  | .report => inferInstanceAs (Decidable (_ ∧ _ ∧ _ ∧ _ ∧ _))
  | .recv => inferInstanceAs (Decidable (_ ∧ _ ∧ _))
  | .test => inferInstanceAs (Decidable (_ ∧ _ ∧ _))

/-- The loop has a signal in hand. -/
def Acts (p : Process) : Prop := p.main = .looping ∧ p.sig.inHand.isEmpty = false

instance (p : Process) : Decidable p.Acts := inferInstanceAs (Decidable (_ ∧ _))

/-- The `switch` of `run_child`. -/
def childAct (p : Process) : Process :=
  match p.sig.inHand with
  | [] => p
  | .sigchld :: _ => { p with sig := p.sig.act }
  | _ :: _ => { p with sig := p.sig.act, stop := true }

/-- The `switch` of `run_parent`, up to the loop it goes into. -/
def parentAct (p : Process) : Process :=
  match p.sig.inHand with
  | [] => p
  | .sigchld :: _ => { p with sig := p.sig.act, main := .reaping }
  | _ :: _ => { p with sig := p.sig.act, main := .killing 0 }

end Process

inductive Life where
  | alive
  | zombie
  | waited
deriving DecidableEq

/-- One of `m_sub_process`, and the child. `known` is `m_pid != -1`. -/
structure Sub where
  known : Bool
  life : Life
  child : Process

/-- The pids of children that have not been waited for differ, so a child is named by its index.
`killed` is what `kill` was called for. -/
structure Pool where
  parent : Process
  subs : List Sub
  killed : List Nat

inductive Step where
  | parent (l : Process.Local)
  | child (i : Nat) (l : Process.Local)
  /-- Somebody else sends a signal, to the parent or to a child. -/
  | raise (dest : Option Nat) (x : Signal)
  | act
  | childAct (i : Nat)
  /-- One round of the loop of `kill`, or its end. -/
  | kill
  /-- `waitpid` finds a child, or none. -/
  | waitpid (i : Option Nat)
  /-- A child terminates. -/
  | exit (i : Nat)
deriving DecidableEq

def change (i : Nat) (f : Sub → Sub) (subs : List Sub) : List Sub :=
  match subs[i]? with
  | some sub => subs.set i (f sub)
  | none => subs

def Sub.raise (x : Signal) (sub : Sub) : Sub := { sub with child := sub.child.raise x }

def kill (s : Pool) : Pool :=
  match s.parent.main with
  | .killing i =>
    match s.subs[i]? with
    | some sub =>
      let parent := { s.parent with main := .killing (i + 1) }
      if sub.known then
        { parent := parent
          subs := change i (Sub.raise .sigterm) s.subs
          killed := s.killed ++ [i] }
      else { s with parent := parent }
    | none => { s with parent := { s.parent with main := .looping } }
  | _ => s

def step (s : Pool) : Step → Pool
  | .parent l => { s with parent := s.parent.step l }
  | .child i l =>
    { s with subs := change i (fun sub => { sub with child := sub.child.step l }) s.subs }
  | .raise none x => { s with parent := s.parent.raise x }
  | .raise (some i) x => { s with subs := change i (Sub.raise x) s.subs }
  | .act => { s with parent := s.parent.parentAct }
  | .childAct i =>
    { s with subs := change i (fun sub => { sub with child := sub.child.childAct }) s.subs }
  | .kill => kill s
  | .waitpid (some i) =>
    { s with subs := change i (fun sub => { sub with known := false, life := .waited }) s.subs }
  | .waitpid none =>
    { s with parent := { s.parent with
        main := .looping, stop := s.subs.all fun sub => !sub.known } }
  | .exit i =>
    { s with
      parent := s.parent.raise .sigchld
      subs := change i (fun sub => { sub with life := .zombie }) s.subs }

/-- The child is there and alive, and `P` holds of it. -/
def Alive (s : Pool) (i : Nat) (P : Process → Prop) : Prop :=
  ∃ sub ∈ s.subs[i]?, sub.life = .alive ∧ P sub.child

instance (s : Pool) (i : Nat) (P : Process → Prop) [DecidablePred P] : Decidable (Alive s i P) :=
  inferInstanceAs (Decidable (∃ sub ∈ s.subs[i]?, _ ∧ _))

/-- `waitpid` with `WNOHANG` finds any child that has terminated. -/
def ok (s : Pool) : Step → Prop
  | .parent l => s.parent.ok l
  | .child i l => Alive s i fun p => p.ok l
  | .raise none _ => True
  | .raise (some i) _ => ∃ sub ∈ s.subs[i]?, sub.life ≠ .waited
  | .act => s.parent.Acts
  | .childAct i => Alive s i Process.Acts
  | .kill => s.parent.main.kills = true
  | .waitpid (some i) => s.parent.main = .reaping ∧ ∃ sub ∈ s.subs[i]?, sub.life = .zombie
  | .waitpid none => s.parent.main = .reaping ∧ ∀ sub ∈ s.subs, sub.life ≠ .zombie
  | .exit i => Alive s i fun _ => True

instance (s : Pool) : (e : Step) → Decidable (ok s e)
  | .parent l => inferInstanceAs (Decidable (s.parent.ok l))
  | .child i l => inferInstanceAs (Decidable (Alive s i fun p => p.ok l))
  | .raise none _ => inferInstanceAs (Decidable True)
  | .raise (some i) _ => inferInstanceAs (Decidable (∃ sub ∈ s.subs[i]?, sub.life ≠ .waited))
  | .act => inferInstanceAs (Decidable s.parent.Acts)
  | .childAct i => inferInstanceAs (Decidable (Alive s i Process.Acts))
  | .kill => inferInstanceAs (Decidable (_ = true))
  | .waitpid (some i) => inferInstanceAs (Decidable (_ ∧ ∃ sub ∈ s.subs[i]?, sub.life = .zombie))
  | .waitpid none => inferInstanceAs (Decidable (_ ∧ ∀ sub ∈ s.subs, sub.life ≠ .zombie))
  | .exit i => inferInstanceAs (Decidable (Alive s i fun _ => True))

def machine : Machine Pool Step := ⟨step, ok⟩

instance (s : Pool) (e : Step) : Decidable (machine.ok s e) := inferInstanceAs (Decidable (ok s e))

/-- A process between `fork` and `addsig`; `cap` is how many signals its pipe holds. -/
def Process.start (cap : Nat) : Process := ⟨.starting, false, SelfPipe.empty cap⟩

/-- The `processpool` as its constructor leaves it. -/
def start (cap processNumber : Nat) : Pool where
  parent := .start cap
  subs := List.replicate processNumber ⟨true, .alive, .start cap⟩
  killed := []

/-! ## What a step does -/

/-- One case for each branch of the source. -/
inductive Did (s : Pool) : Step → Pool → Prop where
  | parent {l : Process.Local} (hok : s.parent.ok l) :
    Did s (.parent l) { s with parent := s.parent.step l }
  | child {i : Nat} {sub : Sub} {l : Process.Local} (hi : s.subs[i]? = some sub)
    (halive : sub.life = .alive) (hok : sub.child.ok l) :
    Did s (.child i l) { s with subs := s.subs.set i { sub with child := sub.child.step l } }
  | raiseParent {x : Signal} : Did s (.raise none x) { s with parent := s.parent.raise x }
  | raiseChild {i : Nat} {sub : Sub} {x : Signal} (hi : s.subs[i]? = some sub) :
    Did s (.raise (some i) x) { s with subs := s.subs.set i (sub.raise x) }
  | reap {rest : List Signal} (hm : s.parent.main = .looping)
    (hh : s.parent.sig.inHand = .sigchld :: rest) :
    Did s .act { s with parent := { s.parent with sig := s.parent.sig.act, main := .reaping } }
  | term {x : Signal} {rest : List Signal} (hm : s.parent.main = .looping)
    (hh : s.parent.sig.inHand = x :: rest) (hx : x ≠ .sigchld) :
    Did s .act { s with parent := { s.parent with sig := s.parent.sig.act, main := .killing 0 } }
  | childAct {i : Nat} {sub : Sub} (hi : s.subs[i]? = some sub) (halive : sub.life = .alive)
    (hacts : sub.child.Acts) :
    Did s (.childAct i) { s with subs := s.subs.set i { sub with child := sub.child.childAct } }
  | kill {i : Nat} {sub : Sub} (hm : s.parent.main = .killing i) (hi : s.subs[i]? = some sub)
    (hk : sub.known = true) :
    Did s .kill
      { parent := { s.parent with main := .killing (i + 1) }
        subs := s.subs.set i (sub.raise .sigterm)
        killed := s.killed ++ [i] }
  | skip {i : Nat} {sub : Sub} (hm : s.parent.main = .killing i) (hi : s.subs[i]? = some sub)
    (hk : sub.known = false) :
    Did s .kill { s with parent := { s.parent with main := .killing (i + 1) } }
  | killed {i : Nat} (hm : s.parent.main = .killing i) (hi : s.subs[i]? = none) :
    Did s .kill { s with parent := { s.parent with main := .looping } }
  | waited {i : Nat} {sub : Sub} (hm : s.parent.main = .reaping) (hi : s.subs[i]? = some sub)
    (hz : sub.life = .zombie) :
    Did s (.waitpid (some i))
      { s with subs := s.subs.set i { sub with known := false, life := .waited } }
  | noneLeft (hm : s.parent.main = .reaping) (hz : ∀ sub ∈ s.subs, sub.life ≠ .zombie) :
    Did s (.waitpid none)
      { s with parent := { s.parent with
          main := .looping, stop := s.subs.all fun sub => !sub.known } }
  | exit {i : Nat} {sub : Sub} (hi : s.subs[i]? = some sub) (halive : sub.life = .alive) :
    Did s (.exit i)
      { s with
        parent := s.parent.raise .sigchld
        subs := s.subs.set i { sub with life := .zombie } }

section
variable {s s' : Pool} {e : Step}

theorem change_eq {i : Nat} {sub : Sub} {subs : List Sub} (hi : subs[i]? = some sub)
    (f : Sub → Sub) : change i f subs = subs.set i (f sub) := by
  unfold change
  rw [hi]

theorem act_did (hok : s.parent.Acts) : Did s .act { s with parent := s.parent.parentAct } := by
  obtain ⟨hm, hne⟩ := hok
  unfold Process.parentAct
  split
  · next hh => simp [hh] at hne
  · next hh => exact .reap hm hh
  · next x rest hx hh => exact .term hm hh hx

theorem kill_did (hok : s.parent.main.kills = true) : Did s .kill (kill s) := by
  unfold kill
  split
  · next i hm =>
    split
    · next sub hi =>
      cases hk : sub.known with
      | true =>
        rw [if_pos rfl, change_eq hi]
        exact .kill hm hi hk
      | false =>
        rw [if_neg Bool.false_ne_true]
        exact .skip hm hi hk
    · next hi => exact .killed hm hi
  · next hm =>
    cases hmain : s.parent.main with
    | killing i => exact absurd hmain (hm i)
    | _ =>
      rw [hmain] at hok
      cases hok

theorem step_did (hok : machine.ok s e) : Did s e (machine.step s e) := by
  cases e with
  | parent l => exact .parent hok
  | child i l =>
    obtain ⟨sub, hi, halive, hl⟩ := hok
    show Did s _ { s with subs := change i _ s.subs }
    rw [change_eq hi]
    exact .child hi halive hl
  | raise dest x =>
    cases dest with
    | none => exact .raiseParent
    | some i =>
      obtain ⟨sub, hi, _⟩ := hok
      show Did s _ { s with subs := change i _ s.subs }
      rw [change_eq hi]
      exact .raiseChild hi
  | act => exact act_did hok
  | childAct i =>
    obtain ⟨sub, hi, halive, hacts⟩ := hok
    show Did s _ { s with subs := change i _ s.subs }
    rw [change_eq hi]
    exact .childAct hi halive hacts
  | kill => exact kill_did hok
  | waitpid i =>
    cases i with
    | none => exact .noneLeft hok.1 hok.2
    | some i =>
      obtain ⟨hm, sub, hi, hz⟩ := hok
      show Did s _ { s with subs := change i _ s.subs }
      rw [change_eq hi]
      exact .waited hm hi hz
  | exit i =>
    obtain ⟨sub, hi, halive, _⟩ := hok
    show Did s _ { s with parent := _, subs := change i _ s.subs }
    rw [change_eq hi]
    exact .exit hi halive

/-! ## What the parent knows -/

/-- The parent's own loops. -/
def Main.loops : Main → Bool
  | .reaping => true
  | .killing _ => true
  | _ => false

/-- `m_pid` is -1 for the children that have been waited for, and `m_stop` is set when all have. -/
structure Inv (s : Pool) : Prop where
  known : ∀ sub ∈ s.subs, sub.known = true ↔ sub.life ≠ .waited
  child : ∀ sub ∈ s.subs, sub.child.main.loops = false
  stop : s.parent.stop = true → ∀ sub ∈ s.subs, sub.life = .waited
  done : (∀ sub ∈ s.subs, sub.life = .waited) → s.subs ≠ [] → s.parent.stop = true ∨
    s.parent.main = .reaping
  ended : s.parent.main = .ended → s.parent.stop = true

/-- What a signal does to a process. -/
theorem raise_cases (x : Signal) (p : Process) :
    (x = .sigchld ∧ p.main = .starting ∧ p.raise x = p) ∨
      (x ≠ .sigchld ∧ p.main = .starting ∧ p.raise x = { p with main := .terminated }) ∨
      (p.main ≠ .starting ∧ p.raise x = { p with sig := p.sig.raise x }) := by
  unfold Process.raise
  split
  · next hm => exact .inl ⟨rfl, hm, rfl⟩
  · next hm hx => exact .inr (.inl ⟨hx, hm, rfl⟩)
  · next hm _ => exact .inr (.inr ⟨hm, rfl⟩)

theorem raise_stop (x : Signal) (p : Process) : (p.raise x).stop = p.stop := by
  rcases raise_cases x p with ⟨_, _, hp⟩ | ⟨_, _, hp⟩ | ⟨_, hp⟩
  · rw [hp]
  · rw [hp]
  · rw [hp]

/-- A signal changes where a process is only if it is not ready for it. -/
theorem raise_main (x : Signal) (p : Process) :
    (p.raise x).main = p.main ∨
      p.main = .starting ∧ x ≠ .sigchld ∧ (p.raise x).main = .terminated := by
  rcases raise_cases x p with ⟨_, _, hp⟩ | ⟨hx, hm, hp⟩ | ⟨_, hp⟩
  · exact .inl (by rw [hp])
  · exact .inr ⟨hm, hx, by rw [hp]⟩
  · exact .inl (by rw [hp])

theorem raise_loops {x : Signal} {p : Process} (h : p.main.loops = false) :
    (p.raise x).main.loops = false := by
  rcases raise_main x p with hm | ⟨_, _, hm⟩
  · rw [hm]
    exact h
  · rw [hm]
    rfl

theorem step_loops {p : Process} {l : Process.Local} (h : p.main.loops = false) :
    (p.step l).main.loops = false := by
  cases l with
  | setup => rfl
  | test => rfl
  | deliver x => exact h
  | report => exact h
  | recv => exact h

theorem childAct_main (p : Process) : p.childAct.main = p.main := by
  unfold Process.childAct
  split
  · rfl
  · rfl
  · rfl

theorem step_stop (p : Process) (l : Process.Local) : (p.step l).stop = p.stop := by
  cases l <;> rfl

theorem step_ended {p : Process} {l : Process.Local} (hok : p.ok l)
    (h : p.main = .ended → p.stop = true) : (p.step l).main = .ended → (p.step l).stop = true := by
  cases l with
  | setup => intro he; cases he
  | test => exact fun _ => hok.2.1
  | deliver x => exact h
  | report => exact h
  | recv => exact h

theorem step_reaping {p : Process} {l : Process.Local} (hok : p.ok l) (h : p.main = .reaping) :
    (p.step l).main = .reaping := by
  cases l with
  | setup => exact absurd (h.symm.trans hok) (by decide)
  | test => exact absurd (h.symm.trans hok.1) (by decide)
  | deliver x => exact h
  | report => exact h
  | recv => exact h

theorem set_ne_nil {subs : List Sub} {i : Nat} {sub : Sub} (h : subs.set i sub ≠ []) :
    subs ≠ [] := by
  rintro rfl
  exact h rfl

/-- Where a child is replaced by one with the same `m_pid` and life, as far as these go. -/
theorem Inv.replace (h : Inv s) {i : Nat} {sub sub' : Sub} {killed : List Nat} {parent : Process}
    (hi : s.subs[i]? = some sub) (hk : sub'.known = sub.known) (hl : sub'.life = sub.life)
    (hc : sub'.child.main.loops = false) (hstop : parent.stop = s.parent.stop)
    (hreap : s.parent.main = .reaping → parent.main = .reaping)
    (hended : parent.main = .ended → s.parent.main = .ended) :
    Inv { parent := parent, subs := s.subs.set i sub', killed := killed } where
  known := by
    refine Threads.forall_set h.known ?_
    rw [hk, hl]
    exact h.known sub (List.mem_of_getElem? hi)
  child := Threads.forall_set h.child hc
  stop := by
    intro he
    refine Threads.forall_set (h.stop (hstop ▸ he)) ?_
    rw [hl]
    exact h.stop (hstop ▸ he) sub (List.mem_of_getElem? hi)
  done := by
    intro hall hne
    have hback : ∀ x ∈ s.subs, x.life = .waited :=
      (Threads.forall_stay (P := fun x => x.life = .waited) hi (by rw [hl])).mp hall
    rcases h.done hback (set_ne_nil hne) with hs | hr
    · exact .inl (hstop.trans hs)
    · exact .inr (hreap hr)
  ended := fun he => hstop.trans (h.ended (hended he))

/-- Where the children stay as they are. -/
theorem Inv.parent (h : Inv s) {parent : Process} (hstop : parent.stop = s.parent.stop)
    (hreap : s.parent.main = .reaping → parent.main = .reaping)
    (hended : parent.main = .ended → parent.stop = true) : Inv { s with parent := parent } where
  known := h.known
  child := h.child
  stop := fun he => h.stop (hstop ▸ he)
  done := fun hall hne => (h.done hall hne).imp hstop.trans hreap
  ended := hended

theorem Inv.did (h : Inv s) (hd : Did s e s') : Inv s' := by
  cases hd with
  | parent hok =>
    exact h.parent (step_stop _ _) (step_reaping hok) (step_ended hok h.ended)
  | child hi halive hok =>
    exact h.replace hi rfl rfl (step_loops (h.child _ (List.mem_of_getElem? hi))) rfl id id
  | @raiseParent x =>
    refine h.parent (raise_stop x _) (fun hr => ?_) (fun he => ?_)
    · rcases raise_main x s.parent with hm | ⟨hm, _⟩
      · exact hm.trans hr
      · exact absurd (hr.symm.trans hm) (by decide)
    · rcases raise_main x s.parent with hm | ⟨_, _, hm⟩
      · exact (raise_stop x _).trans (h.ended (hm.symm.trans he))
      · exact absurd (he.symm.trans hm) (by decide)
  | raiseChild hi =>
    exact h.replace hi rfl rfl (raise_loops (h.child _ (List.mem_of_getElem? hi))) rfl id id
  | reap hm hh =>
    exact h.parent rfl (fun _ => rfl) (fun he => (by cases he))
  | term hm hh hx =>
    exact h.parent rfl (fun hr => absurd (hr.symm.trans hm) (by decide)) (fun he => (by cases he))
  | childAct hi halive hacts =>
    refine h.replace hi rfl rfl ?_ rfl id id
    rw [childAct_main]
    exact h.child _ (List.mem_of_getElem? hi)
  | kill hm hi hk =>
    exact h.replace hi rfl rfl (raise_loops (h.child _ (List.mem_of_getElem? hi))) rfl
      (fun hr => absurd (hr.symm.trans hm) (by simp)) (fun he => (by cases he))
  | skip hm hi hk =>
    exact h.parent rfl (fun hr => absurd (hr.symm.trans hm) (by simp)) (fun he => (by cases he))
  | killed hm hi =>
    exact h.parent rfl (fun hr => absurd (hr.symm.trans hm) (by simp)) (fun he => (by cases he))
  | @waited i sub hm hi hz =>
    have hchild := h.child sub (List.mem_of_getElem? hi)
    refine ⟨Threads.forall_set h.known (by simp), Threads.forall_set h.child hchild, fun hs => ?_,
      fun _ _ => .inr hm, h.ended⟩
    exact Threads.forall_set (h.stop hs) rfl
  | noneLeft hm hz =>
    have hall : s.subs.all (fun sub => !sub.known) = true ↔ ∀ sub ∈ s.subs, sub.life = .waited := by
      rw [List.all_eq_true]
      refine forall₂_congr fun sub hsub => ?_
      have hk := h.known sub hsub
      cases hknown : sub.known with
      | true =>
        rw [hknown] at hk
        exact iff_of_false (by simp) (hk.mp rfl)
      | false =>
        rw [hknown] at hk
        refine iff_of_true rfl ?_
        by_contra hne
        exact Bool.false_ne_true (hk.mpr hne)
    exact ⟨h.known, h.child, hall.mp, fun hw _ => .inl (hall.mpr hw), fun he => (by cases he)⟩
  | @exit i sub hi halive =>
    have hsub := List.mem_of_getElem? hi
    have hnot : s.parent.stop = true → False := by
      intro hs
      exact absurd (halive.symm.trans (h.stop hs sub hsub)) (by decide)
    refine ⟨Threads.forall_set h.known ?_, Threads.forall_set h.child (h.child sub hsub),
      fun hs => ?_, fun hall hne => ?_, fun he => ?_⟩
    · refine iff_of_true ((h.known sub hsub).mpr ?_) (by simp)
      rw [halive]
      decide
    · exact absurd ((raise_stop _ _).symm.trans hs) hnot
    · have hlt := (List.getElem?_eq_some_iff.mp hi).1
      have hz := hall _ (List.mem_of_getElem? (List.getElem?_set_self hlt))
      cases hz
    · refine absurd (h.ended ?_) hnot
      rcases raise_main .sigchld s.parent with hm | ⟨_, hx, _⟩
      · exact hm.symm.trans he
      · exact absurd rfl hx

theorem start_inv (cap processNumber : Nat) (hpos : 0 < processNumber) :
    Inv (start cap processNumber) where
  known := by
    intro sub hsub
    rw [List.eq_of_mem_replicate hsub]
    exact iff_of_true rfl (by simp)
  child := by
    intro sub hsub
    rw [List.eq_of_mem_replicate hsub]
    rfl
  stop := fun h => (by cases h)
  done := by
    intro hall
    have hmem : (⟨true, .alive, .start cap⟩ : Sub) ∈ (start cap processNumber).subs :=
      List.mem_replicate.mpr ⟨Nat.ne_of_gt hpos, rfl⟩
    have hlife := hall _ hmem
    cases hlife
  ended := fun h => (by cases h)

/-! ## The parent goes last -/

/-- The parent is gone, and a child is left. -/
def Deserted (s : Pool) : Prop :=
  (s.parent.main = .ended ∨ s.parent.main = .terminated) ∧ ∃ sub ∈ s.subs, sub.life = .alive

/-- No SIGTERM or SIGINT comes to the parent before `addsig`, with a child alive. -/
def Handled (s : Pool) : Step → Prop
  | .raise none x => x ≠ .sigchld → s.parent.main = .starting → ∀ sub ∈ s.subs, sub.life ≠ .alive
  | _ => True

/-- `kill` is called for children only: a pid is the child's until it has been waited for. -/
def Aimed (s : Pool) : Step → Prop
  | .kill => ∀ i sub, s.parent.main = .killing i → s.subs[i]? = some sub → sub.known = true →
      sub.life ≠ .waited
  | _ => True

theorem Inv.aimed (h : Inv s) : Aimed s e := by
  cases e with
  | kill => exact fun i sub _ hi hk => (h.known sub (List.mem_of_getElem? hi)).mp hk
  | _ => trivial

/-- A parent that leaves its loop has waited for everybody. -/
theorem Inv.deserted_iff (h : Inv s) :
    Deserted s ↔ s.parent.main = .terminated ∧ ∃ sub ∈ s.subs, sub.life = .alive := by
  constructor
  · rintro ⟨hm | hm, sub, hsub, halive⟩
    · exact absurd (halive.symm.trans (h.stop (h.ended hm) sub hsub)) (by decide)
    · exact ⟨hm, sub, hsub, halive⟩
  · rintro ⟨hm, hsub⟩
    exact ⟨.inr hm, hsub⟩

/-- Nobody comes back to life. -/
theorem did_alive (hd : Did s e s') (h : ∃ sub ∈ s'.subs, sub.life = .alive) :
    ∃ sub ∈ s.subs, sub.life = .alive := by
  have hset : ∀ {i : Nat} {sub sub' : Sub}, s.subs[i]? = some sub →
      (∃ x ∈ s.subs.set i sub', x.life = .alive) → sub'.life = sub.life →
      ∃ x ∈ s.subs, x.life = .alive := by
    intro i sub sub' hi halive hl
    exact (Threads.exists_stay (P := fun x => x.life = .alive) hi (by rw [hl])).mp halive
  cases hd with
  | child hi => exact hset hi h rfl
  | raiseChild hi => exact hset hi h rfl
  | childAct hi => exact hset hi h rfl
  | kill hm hi => exact hset hi h rfl
  | waited hm hi hz =>
    obtain ⟨x, hx, halive⟩ := h
    rcases List.mem_or_eq_of_mem_set hx with hx | rfl
    · exact ⟨x, hx, halive⟩
    · cases halive
  | exit hi halive => exact ⟨_, List.mem_of_getElem? hi, halive⟩
  | _ => exact h

/-- Only a signal that finds no handler terminates the parent. -/
theorem did_terminated (hd : Did s e s') (h : s'.parent.main = .terminated) :
    s.parent.main = .terminated ∨
      ∃ x, e = .raise none x ∧ x ≠ .sigchld ∧ s.parent.main = .starting := by
  cases hd with
  | @parent l hok =>
    cases l with
    | setup => cases h
    | test => cases h
    | deliver x => exact .inl h
    | report => exact .inl h
    | recv => exact .inl h
  | @raiseParent x =>
    rcases raise_main x s.parent with hm | ⟨hm, hx, _⟩
    · exact .inl (hm.symm.trans h)
    · exact .inr ⟨x, rfl, hx, hm⟩
  | exit hi halive =>
    rcases raise_main .sigchld s.parent with hm | ⟨_, hx, _⟩
    · exact .inl (hm.symm.trans h)
    · exact absurd rfl hx
  | reap => cases h
  | term => cases h
  | kill => cases h
  | skip => cases h
  | killed => cases h
  | noneLeft => cases h
  | child => exact .inl h
  | raiseChild => exact .inl h
  | childAct => exact .inl h
  | waited => exact .inl h

theorem deserted_step (h : Inv s) (hok : machine.ok s e) (hs : ¬Deserted s) :
    ¬Deserted (machine.step s e) ↔ Handled s e := by
  have hd := step_did hok
  have hinv := h.did hd
  rw [hinv.deserted_iff]
  constructor
  · intro hnot
    cases e with
    | raise dest x =>
      cases dest with
      | none =>
        intro hx hm sub hsub halive
        refine hnot ⟨?_, sub, hsub, halive⟩
        show (s.parent.raise x).main = .terminated
        unfold Process.raise
        rw [hm]
        cases x with
        | sigchld => exact absurd rfl hx
        | sigterm => rfl
        | sigint => rfl
      | some i => trivial
    | _ => trivial
  · rintro hhandled ⟨hm, halive⟩
    have hwas := did_alive hd halive
    rcases did_terminated hd hm with hterm | ⟨x, rfl, hx, hstart⟩
    · exact hs ⟨.inr hterm, hwas⟩
    · obtain ⟨sub, hsub, hlife⟩ := hwas
      exact hhandled hx hstart sub hsub hlife

/-- The parent calls `kill` for its children only, and never ends while a child is alive, but for a
SIGTERM or SIGINT that comes before it has set its handlers. -/
theorem ends_last (cap processNumber : Nat) (hpos : 0 < processNumber) (es : List Step)
    (hv : machine.Valid (start cap processNumber) es) :
    machine.Each Aimed (start cap processNumber) es ∧
      (machine.Always (fun s => ¬Deserted s) (start cap processNumber) es ↔
        machine.Each Handled (start cap processNumber) es) := by
  have hinv := start_inv cap processNumber hpos
  refine ⟨Machine.each_inv (M := machine) (I := Inv) (fun _ _ h hok => h.did (step_did hok))
    (fun _ _ h _ => h.aimed) hinv hv, ?_⟩
  refine Machine.always_iff_each (M := machine) (I := Inv) (fun _ _ h hok => h.did (step_did hok))
    (fun _ _ h hok hs => deserted_step h hok hs) hinv ?_ hv
  rintro ⟨hm | hm, _⟩
  · cases hm
  · cases hm

/-- The parent is told to end before it has set its handlers. -/
theorem ends_last_early :
    machine.Each Aimed (start 5 2) [.child 0 .setup, .raise none .sigterm] ∧
      (machine.Always (fun s => ¬Deserted s) (start 5 2)
          [.child 0 .setup, .raise none .sigterm] ↔
        machine.Each Handled (start 5 2) [.child 0 .setup, .raise none .sigterm]) :=
  ends_last 5 2 (by decide) [.child 0 .setup, .raise none .sigterm] (by decide)

end

end PoolEnd
end Unpvol1
