import Unpvol1.Lib.Children
import Unpvol1.Lib.Progress

/-!
# Unp.PreforkEnd

How the preforked servers start and end (`main`, `child_make` and `sig_int` of `30chp/serv02.c`,
`serv03.c` and `serv04.c`, which are the same). `main` forks the children, then sets the handler for
SIGINT, and pauses; the handler sends SIGTERM to every child, waits for them all, and exits. A
SIGINT that comes before the handler is set ends the parent.

* `Inv`              — what `pids` and the table of children have to do with each other.
* `kills_children`   — every `kill` is for a child, and each child gets one.
* `never_orphaned_iff` — when children outlive the parent.
* `sigint_ends`      — once the handler runs, the server ends.
-/

namespace Unpvol1
namespace PreforkEnd

open Children (Status Table mark reap work)

/-- Where the parent is. A parent whose `fork` fails goes on into `child_main`, as a child does. -/
inductive Parent where
  | forking (i : Nat)
  | childMain
  | pausing
  /-- In `sig_int`, with `i` calls of `kill` made. -/
  | killing (i : Nat)
  /-- `exit(0)` of `sig_int`. -/
  | exited
  /-- By SIGINT. -/
  | terminated
deriving DecidableEq

/-- `pids` is the array of `calloc`, and `killed` what `kill` was called for. -/
structure State where
  parent : Parent
  pids : List Nat
  table : Table
  killed : List Nat
deriving DecidableEq

inductive Event where
  /-- The child's pid, or a failure. -/
  | fork (pid : Option Nat)
  /-- `signal( SIGINT, sig_int )` -/
  | signal
  | sigint
  /-- `web_child` exits on a bad request, in a parent that is in `child_main`. -/
  | quit
  | kill
  /-- The pid, or -1 with ECHILD. -/
  | wait (pid : Option Nat)
  /-- A child terminates. -/
  | exit (pid : Nat)
deriving DecidableEq

def step (s : State) : Event → State
  | .fork none => { s with parent := .childMain }
  | .fork (some pid) =>
    match s.parent with
    | .forking i => { s with
        parent := .forking (i + 1)
        pids := s.pids.set i pid
        table := s.table ++ [(pid, .running)] }
    | _ => s
  | .signal => { s with parent := .pausing }
  | .sigint => { s with parent := if s.parent = .pausing then .killing 0 else .terminated }
  | .quit => { s with parent := .terminated }
  | .kill =>
    match s.parent with
    | .killing i => { s with
        parent := .killing (i + 1)
        table := mark (s.pids.getD i 0) Status.terminate s.table
        killed := s.killed ++ [s.pids.getD i 0] }
    | _ => s
  | .wait (some pid) => { s with table := reap pid s.table }
  | .wait none => { s with parent := .exited }
  | .exit pid => { s with table := mark pid (fun _ => .zombie) s.table }

/-- The `for` loop of `main` goes on. -/
def State.forks (s : State) : Bool :=
  match s.parent with
  | .forking i => i < s.pids.length
  | _ => false

/-- The `for` loop of `sig_int` goes on. -/
def State.kills (s : State) : Bool :=
  match s.parent with
  | .killing i => i < s.pids.length
  | _ => false

/-- SIGINT is blocked while its handler runs. -/
def Parent.takesSigint : Parent → Bool
  | .forking _ => true
  | .childMain => true
  | .pausing => true
  | _ => false

/-- `fork` returns a pid no child has, and `wait` that of a child that has terminated. -/
def ok (s : State) : Event → Prop
  | .fork none => s.forks = true
  | .fork (some pid) => s.forks = true ∧ 0 < pid ∧ pid ∉ Children.pids s.table
  | .signal => s.parent = .forking s.pids.length
  | .sigint => s.parent.takesSigint = true
  | .quit => s.parent = .childMain
  | .kill => s.kills = true
  | .wait (some pid) => s.parent = .killing s.pids.length ∧ (pid, .zombie) ∈ s.table
  | .wait none => s.parent = .killing s.pids.length ∧ s.table = []
  | .exit pid => (pid, .running) ∈ s.table ∨ (pid, .dying) ∈ s.table

instance (s : State) : (e : Event) → Decidable (ok s e)
  | .fork none => inferInstanceAs (Decidable (s.forks = true))
  | .fork (some pid) => inferInstanceAs (Decidable (s.forks = true ∧ 0 < pid ∧
      pid ∉ Children.pids s.table))
  | .signal => inferInstanceAs (Decidable (s.parent = .forking s.pids.length))
  | .sigint => inferInstanceAs (Decidable (s.parent.takesSigint = true))
  | .quit => inferInstanceAs (Decidable (s.parent = .childMain))
  | .kill => inferInstanceAs (Decidable (s.kills = true))
  | .wait (some pid) => inferInstanceAs (Decidable (s.parent = .killing s.pids.length ∧
      (pid, Status.zombie) ∈ s.table))
  | .wait none => inferInstanceAs (Decidable (s.parent = .killing s.pids.length ∧ s.table = []))
  | .exit pid => inferInstanceAs (Decidable ((pid, Status.running) ∈ s.table ∨
      (pid, Status.dying) ∈ s.table))

def machine : Machine State Event := ⟨step, ok⟩

instance (s : State) (e : Event) : Decidable (machine.ok s e) :=
  inferInstanceAs (Decidable (ok s e))

def start (nchildren : Nat) : State where
  parent := .forking 0
  pids := List.replicate nchildren 0
  table := []
  killed := []

section
variable {s s' : State}

/-! ## What a step can do -/

inductive Did (s : State) : State → Prop where
  | forkFails (h : s.forks = true) : Did s { s with parent := .childMain }
  | fork (i pid : Nat) (h : s.parent = .forking i) (hi : i < s.pids.length) (hpid : 0 < pid)
      (hnew : pid ∉ Children.pids s.table) :
      Did s { s with
        parent := .forking (i + 1), pids := s.pids.set i pid
        table := s.table ++ [(pid, .running)] }
  | signal (h : s.parent = .forking s.pids.length) : Did s { s with parent := .pausing }
  | handled (h : s.parent = .pausing) : Did s { s with parent := .killing 0 }
  | terminated (h : s.parent ≠ .pausing) (ht : s.parent.takesSigint = true) :
      Did s { s with parent := .terminated }
  | kill (i : Nat) (h : s.parent = .killing i) (hi : i < s.pids.length) :
      Did s { s with
        parent := .killing (i + 1), table := mark (s.pids.getD i 0) Status.terminate s.table
        killed := s.killed ++ [s.pids.getD i 0] }
  | wait (pid : Nat) (h : s.parent = .killing s.pids.length) (hpid : (pid, .zombie) ∈ s.table) :
      Did s { s with table := reap pid s.table }
  | echild (h : s.parent = .killing s.pids.length) (hnone : s.table = []) :
      Did s { s with parent := .exited }
  | exit (pid : Nat) (h : (pid, .running) ∈ s.table ∨ (pid, .dying) ∈ s.table) :
      Did s { s with table := mark pid (fun _ => .zombie) s.table }

theorem forking_of_forks (h : s.forks = true) :
    ∃ i, s.parent = .forking i ∧ i < s.pids.length := by
  unfold State.forks at h
  split at h
  · rename_i i hi
    exact ⟨i, hi, of_decide_eq_true h⟩
  · cases h

theorem killing_of_kills (h : s.kills = true) :
    ∃ i, s.parent = .killing i ∧ i < s.pids.length := by
  unfold State.kills at h
  split at h
  · rename_i i hi
    exact ⟨i, hi, of_decide_eq_true h⟩
  · cases h

theorem step_did {e : Event} (hok : machine.ok s e) : Did s (machine.step s e) := by
  show Did s (step s e)
  have hok : ok s e := hok
  cases e with
  | fork pid =>
    cases pid with
    | none => exact .forkFails hok
    | some pid =>
      obtain ⟨hforks, hpid, hnew⟩ := hok
      obtain ⟨i, hi, hlt⟩ := forking_of_forks hforks
      simp only [step, hi]
      exact .fork i pid hi hlt hpid hnew
  | signal => exact .signal hok
  | sigint =>
    by_cases h : s.parent = .pausing
    · simp only [step, if_pos h]
      exact .handled h
    · simp only [step, if_neg h]
      exact .terminated h hok
  | quit =>
    have hok : s.parent = .childMain := hok
    exact .terminated (by simp [hok]) (by rw [hok]; rfl)
  | kill =>
    obtain ⟨i, hi, hlt⟩ := killing_of_kills hok
    simp only [step, hi]
    exact .kill i hi hlt
  | wait pid =>
    cases pid with
    | none => exact .echild hok.1 hok.2
    | some pid => exact .wait pid hok.1 hok.2
  | exit pid => exact .exit pid hok

/-! ## The invariant -/

/-- Until a child is waited for, the children are those of `pids` that are set, in this order. -/
def Shape (s : State) : Parent → Prop
  | .forking i =>
    i ≤ s.pids.length ∧ Children.pids s.table = s.pids.take i ∧ s.killed = []
  | .pausing => Children.pids s.table = s.pids ∧ s.killed = []
  | .killing i =>
    i ≤ s.pids.length ∧ s.pids.Nodup ∧ s.killed = s.pids.take i ∧
      (i < s.pids.length → Children.pids s.table = s.pids) ∧
      ∀ p, (p, .running) ∈ s.table → p ∈ s.pids.drop i
  | .exited => s.pids.Nodup ∧ s.table = [] ∧ s.killed = s.pids
  | .childMain => s.killed = []
  | .terminated => s.killed = []

structure Inv (s : State) : Prop where
  nodup : (Children.pids s.table).Nodup
  positive : ∀ p ∈ Children.pids s.table, 0 < p
  shape : Shape s s.parent

theorem start_inv (nchildren : Nat) : Inv (start nchildren) where
  nodup := List.nodup_nil
  positive := fun p hp => by cases hp
  shape := ⟨Nat.zero_le _, rfl, rfl⟩

theorem Inv.at {x : Parent} (h : Inv s) (hx : s.parent = x) : Shape s x := hx ▸ h.shape

theorem getD_pid {i : Nat} (hi : i < s.pids.length) : s.pids.getD i 0 = s.pids[i] := by
  rw [List.getD_eq_getElem?_getD, List.getElem?_eq_getElem hi, Option.getD_some]

/-- What `kill` is called for is a child. -/
theorem Inv.target {i : Nat} (h : Inv s) (hp : s.parent = .killing i) (hi : i < s.pids.length) :
    s.pids.getD i 0 ∈ Children.pids s.table := by
  obtain ⟨_, _, _, hkeys, _⟩ := h.at hp
  rw [hkeys hi, getD_pid hi]
  exact List.getElem_mem hi

theorem mark_inv {pid : Nat} {f : Status → Status} (h : Inv s)
    (hs : Shape { s with table := mark pid f s.table } s.parent) :
    Inv { s with table := mark pid f s.table } where
  nodup := by
    rw [Children.pids_mark]
    exact h.nodup
  positive := by
    rw [Children.pids_mark]
    exact h.positive
  shape := hs

theorem exit_shape {pid : Nat} {x : Parent} (h : Shape s x) (hne : x = .exited → False) :
    Shape { s with table := mark pid (fun _ => .zombie) s.table } x := by
  have hmark := Children.pids_mark pid (fun _ => .zombie) s.table
  cases x with
  | forking i =>
    obtain ⟨hi, hkeys, hk⟩ := h
    exact ⟨hi, hmark.trans hkeys, hk⟩
  | pausing =>
    obtain ⟨hkeys, hk⟩ := h
    exact ⟨hmark.trans hkeys, hk⟩
  | killing i =>
    obtain ⟨hi, hnodup, hk, hkeys, hrun⟩ := h
    refine ⟨hi, hnodup, hk, fun hlt => hmark.trans (hkeys hlt), fun p hp => ?_⟩
    have hp : (p, .running) ∈ mark pid (fun _ => .zombie) s.table := hp
    obtain ⟨_, hp⟩ | ⟨_, y, _, hy⟩ := Children.mem_mark hp
    · exact hrun p hp
    · cases hy
  | exited => exact absurd rfl hne
  | childMain => exact h
  | terminated => exact h

theorem Inv.fork {i pid : Nat} (h : Inv s) (hp : s.parent = .forking i) (hi : i < s.pids.length)
    (hpid : 0 < pid) (hnew : pid ∉ Children.pids s.table) :
    Inv { s with
      parent := .forking (i + 1), pids := s.pids.set i pid
      table := s.table ++ [(pid, .running)] } := by
  obtain ⟨_, hkeys, hk⟩ := h.at hp
  refine ⟨?_, ?_, ?_, ?_, hk⟩
  · simp only [Children.pids_append]
    have hone : [pid].Nodup := List.nodup_cons.mpr ⟨List.not_mem_nil, List.nodup_nil⟩
    refine List.nodup_append.mpr ⟨h.nodup, hone, ?_⟩
    rintro a ha b hb rfl
    obtain rfl : a = pid := List.mem_singleton.mp hb
    exact hnew ha
  · simp only [Children.pids_append]
    intro p hp
    rcases List.mem_append.mp hp with hp | hp
    · exact h.positive p hp
    · obtain rfl : p = pid := List.mem_singleton.mp hp
      exact hpid
  · rw [List.length_set]
    exact hi
  · have hset : (s.pids.set i pid).take i = s.pids.take i := by
      rw [List.take_set, List.set_eq_of_length_le (List.length_take_le _ _)]
    show Children.pids (s.table ++ [(pid, .running)]) = (s.pids.set i pid).take (i + 1)
    rw [Children.pids_append, hkeys, List.take_add_one, hset, List.getElem?_set_self hi]
    rfl

theorem Inv.kill {i : Nat} (h : Inv s) (hp : s.parent = .killing i) (hi : i < s.pids.length) :
    Inv { s with
      parent := .killing (i + 1), table := mark (s.pids.getD i 0) Status.terminate s.table
      killed := s.killed ++ [s.pids.getD i 0] } := by
  obtain ⟨_, hnodup, hk, hkeys, hrun⟩ := h.at hp
  have hget := getD_pid hi
  refine ⟨?_, ?_, hi, hnodup, ?_, fun _ => ?_, fun p hp => ?_⟩
  · rw [Children.pids_mark]
    exact h.nodup
  · rw [Children.pids_mark]
    exact h.positive
  · show s.killed ++ [s.pids.getD i 0] = s.pids.take (i + 1)
    rw [hk, hget, List.take_append_getElem hi]
  · rw [Children.pids_mark]
    exact hkeys hi
  · -- the child that runs on is another one
    obtain ⟨hne, hp⟩ | ⟨_, y, _, hy⟩ := Children.mem_mark hp
    · have hdrop := hrun p hp
      rw [List.drop_eq_getElem_cons hi] at hdrop
      rcases List.mem_cons.mp hdrop with heq | hmem
      · exact absurd (heq.trans hget.symm) hne
      · exact hmem
    · cases y <;> cases hy

theorem Inv.did (h : Inv s) (hd : Did s s') : Inv s' := by
  cases hd with
  | forkFails hforks =>
    obtain ⟨i, hi, _⟩ := forking_of_forks hforks
    obtain ⟨_, _, hk⟩ := h.at hi
    exact ⟨h.nodup, h.positive, hk⟩
  | fork i pid hp hi hpid hnew => exact h.fork hp hi hpid hnew
  | signal hp =>
    obtain ⟨_, hkeys, hk⟩ := h.at hp
    rw [List.take_length] at hkeys
    exact ⟨h.nodup, h.positive, hkeys, hk⟩
  | handled hp =>
    obtain ⟨hkeys, hk⟩ := h.at hp
    refine ⟨h.nodup, h.positive, Nat.zero_le _, hkeys ▸ h.nodup, hk, fun _ => hkeys, ?_⟩
    intro p hp
    show p ∈ s.pids
    rw [← hkeys]
    exact Children.mem_pids hp
  | terminated hne ht =>
    refine ⟨h.nodup, h.positive, ?_⟩
    cases hp : s.parent with
    | forking i => exact (h.at hp).2.2
    | childMain => exact h.at hp
    | pausing => exact absurd hp hne
    | killing i =>
      rw [hp] at ht
      cases ht
    | exited =>
      rw [hp] at ht
      cases ht
    | terminated => exact h.at hp
  | kill i hp hi => exact h.kill hp hi
  | wait pid hp hpid =>
    obtain ⟨hi, hnodup, hk, _, hrun⟩ := h.at hp
    have hsub := Children.pids_reap_sublist pid s.table
    refine ⟨h.nodup.sublist hsub, fun p hp => h.positive p (hsub.subset hp), ?_⟩
    show Shape { s with table := reap pid s.table } s.parent
    rw [hp]
    refine ⟨hi, hnodup, hk, fun hlt => absurd hlt (Nat.lt_irrefl _), fun p hp => ?_⟩
    exact hrun p (Children.mem_reap.mp hp).1
  | echild hp hnone =>
    obtain ⟨_, hnodup, hk, _, _⟩ := h.at hp
    rw [List.take_length] at hk
    exact ⟨h.nodup, h.positive, hnodup, hnone, hk⟩
  | exit pid hpid =>
    refine mark_inv h (exit_shape h.shape fun hp => ?_)
    obtain ⟨_, hnone, _⟩ := h.at hp
    rw [hnone] at hpid
    rcases hpid with hpid | hpid
    · cases hpid
    · cases hpid

theorem runs_inv (nchildren : Nat) {es : List Event} (hv : machine.Valid (start nchildren) es) :
    machine.Always Inv (start nchildren) es :=
  Machine.always_inv (M := machine) (fun _ _ h hok => h.did (step_did hok)) (start_inv nchildren) hv

/-! ## Who is killed -/

/-- A `kill` is for a child that has not been waited for. -/
def Aimed (s : State) : Event → Prop
  | .kill => ∃ i, s.parent = .killing i ∧ 0 < s.pids.getD i 0 ∧
      s.pids.getD i 0 ∈ Children.pids s.table
  | _ => True

/-- No child is killed twice, and when the server exits all have been, and have been waited for. -/
def Once (s : State) : Prop :=
  s.killed.Nodup ∧ s.killed <+: s.pids ∧ (s.parent = .exited → s.killed = s.pids ∧ s.table = [])

theorem Inv.aimed {e : Event} (h : Inv s) (hok : machine.ok s e) : Aimed s e := by
  cases e with
  | kill =>
    obtain ⟨i, hi, hlt⟩ := killing_of_kills hok
    have htarget := h.target hi hlt
    exact ⟨i, hi, h.positive _ htarget, htarget⟩
  | _ => trivial

theorem Inv.once (h : Inv s) : Once s := by
  have hempty : s.killed = [] → s.parent ≠ .exited → Once s := by
    intro hk hp
    refine ⟨?_, ?_, fun he => absurd he hp⟩
    · rw [hk]
      exact List.nodup_nil
    · rw [hk]
      exact List.nil_prefix
  cases hp : s.parent with
  | forking i => exact hempty (h.at hp).2.2 (by simp [hp])
  | childMain => exact hempty (h.at hp) (by simp [hp])
  | pausing => exact hempty (h.at hp).2 (by simp [hp])
  | killing i =>
    obtain ⟨_, hnodup, hk, _, _⟩ := h.at hp
    refine ⟨?_, ?_, fun he => by rw [hp] at he; cases he⟩
    · rw [hk]
      exact hnodup.sublist (List.take_sublist _ _)
    · rw [hk]
      exact List.take_prefix _ _
  | exited =>
    obtain ⟨hnodup, hnone, hk⟩ := h.at hp
    exact ⟨hk ▸ hnodup, hk ▸ List.prefix_refl _, fun _ => ⟨hk, hnone⟩⟩
  | terminated => exact hempty (h.at hp) (by simp [hp])

/-- Every `kill` of `sig_int` is for a child of the server, and each child gets one before the
server exits. -/
theorem kills_children (nchildren : Nat) (es : List Event)
    (hv : machine.Valid (start nchildren) es) :
    machine.Each Aimed (start nchildren) es ∧ machine.Always Once (start nchildren) es :=
  ⟨Machine.each_inv (M := machine) (I := Inv) (fun _ _ h hok => h.did (step_did hok))
      (fun _ _ h hok => h.aimed hok) (start_inv nchildren) hv,
    (runs_inv nchildren hv).imp fun _ h => h.once⟩

/-- Two children; one terminates before it is killed. -/
def twoChildren : List Event :=
  [.fork (some 7), .fork (some 9), .signal, .exit 9, .sigint, .kill, .kill, .wait (some 9), .exit 7,
    .wait (some 7), .wait none]

theorem kills_children_two :
    machine.Each Aimed (start 2) twoChildren ∧ machine.Always Once (start 2) twoChildren :=
  kills_children 2 twoChildren (by decide)

/-! ## Children that are left -/

def Parent.gone : Parent → Bool
  | .exited => true
  | .terminated => true
  | _ => false

/-- A child that nobody has sent a signal outlives the parent. -/
def Orphaned (s : State) : Prop := s.parent.gone = true ∧ ∃ pid, (pid, .running) ∈ s.table

/-- A SIGINT finds the handler set, or no child; nor does a parent in `child_main` leave one. -/
def Handled (s : State) : Event → Prop
  | .sigint => s.parent = .pausing ∨ ∀ pid, (pid, .running) ∉ s.table
  | .quit => ∀ pid, (pid, .running) ∉ s.table
  | _ => True

theorem orphaned_step {e : Event} (hok : machine.ok s e) (hs : ¬Orphaned s) :
    ¬Orphaned (machine.step s e) ↔ Handled s e := by
  have hstays : ∀ t : State, t.parent.gone = false → ¬Orphaned t := by
    rintro t ht ⟨hgone, _⟩
    rw [ht] at hgone
    cases hgone
  cases e with
  | sigint =>
    by_cases hp : s.parent = .pausing
    · have hstep : machine.step s .sigint = { s with parent := .killing 0 } := by
        show ({ s with parent := _ } : State) = _
        rw [if_pos hp]
      rw [hstep]
      exact ⟨fun _ => .inl hp, fun _ => hstays _ rfl⟩
    · have hstep : machine.step s .sigint = { s with parent := .terminated } := by
        show ({ s with parent := _ } : State) = _
        rw [if_neg hp]
      rw [hstep]
      constructor
      · intro hno
        exact .inr fun pid hpid => hno ⟨rfl, pid, hpid⟩
      · rintro (hp' | hnone) ⟨_, pid, hpid⟩
        · exact hp hp'
        · exact hnone pid hpid
  | quit =>
    constructor
    · exact fun hno pid hpid => hno ⟨rfl, pid, hpid⟩
    · rintro hnone ⟨_, pid, hpid⟩
      exact hnone pid hpid
  | exit pid =>
    refine ⟨fun _ => trivial, fun _ => ?_⟩
    rintro ⟨hgone, p, hp⟩
    have hp : (p, .running) ∈ mark pid (fun _ => .zombie) s.table := hp
    obtain ⟨_, hp⟩ | ⟨_, y, _, hy⟩ := Children.mem_mark hp
    · exact hs ⟨hgone, p, hp⟩
    · cases hy
  | fork pid =>
    refine ⟨fun _ => trivial, fun _ => hstays _ ?_⟩
    cases pid with
    | none => rfl
    | some pid =>
      obtain ⟨i, hi, _⟩ := forking_of_forks hok.1
      show (step s (.fork (some pid))).parent.gone = false
      simp only [step, hi]
      rfl
  | signal => exact ⟨fun _ => trivial, fun _ => hstays _ rfl⟩
  | kill =>
    obtain ⟨i, hi, _⟩ := killing_of_kills hok
    refine ⟨fun _ => trivial, fun _ => hstays _ ?_⟩
    show (step s .kill).parent.gone = false
    simp only [step, hi]
    rfl
  | wait pid =>
    refine ⟨fun _ => trivial, fun _ => ?_⟩
    cases pid with
    | none =>
      rintro ⟨_, p, hp⟩
      have hnone : s.table = [] := hok.2
      have hp : (p, .running) ∈ s.table := hp
      rw [hnone] at hp
      cases hp
    | some pid =>
      refine hstays _ ?_
      show s.parent.gone = false
      rw [hok.1]
      rfl

/-- Children outlive the parent just when a SIGINT comes before the handler is set, or a parent
whose `fork` failed ends, with a child running. -/
theorem never_orphaned_iff (nchildren : Nat) (es : List Event)
    (hv : machine.Valid (start nchildren) es) :
    machine.Always (fun s => ¬Orphaned s) (start nchildren) es ↔
      machine.Each Handled (start nchildren) es := by
  refine Machine.always_iff_each (M := machine) (I := Inv) (fun _ _ h hok => h.did (step_did hok))
    (fun _ _ _ hok hs => orphaned_step hok hs) (start_inv nchildren) ?_ hv
  rintro ⟨hgone, _⟩
  cases hgone

/-- The second `fork` fails. The parent goes on as a child would, and SIGINT ends it alone. -/
theorem never_orphaned_iff_forkFails :
    machine.Always (fun s => ¬Orphaned s) (start 2) [.fork (some 7), .fork none, .sigint] ↔
      machine.Each Handled (start 2) [.fork (some 7), .fork none, .sigint] :=
  never_orphaned_iff 2 [.fork (some 7), .fork none, .sigint] (by decide)

/-! ## The end -/

/-- The steps that are sure to come: those of the parent, and of the children that have been
killed. -/
def closing : Machine State Event where
  step := step
  ok s e := ok s e ∧ ∀ pid, e = .exit pid → (pid, .dying) ∈ s.table

/-- What is left of `sig_int`. -/
def Parent.toGo (nchildren : Nat) : Parent → Nat
  | .killing i => 1 + (nchildren - i)
  | _ => 0

def State.toGo (s : State) : Nat := s.parent.toGo s.pids.length + work s.table

/-- In `sig_int`, or behind it. -/
structure Closing (s : State) : Prop where
  inv : Inv s
  inside : (∃ i, s.parent = .killing i) ∨ s.parent = .exited

/-- Behind `exit` nothing happens. -/
theorem Closing.killing {e : Event} (h : Closing s) (hok : machine.ok s e) :
    ∃ i, s.parent = .killing i := by
  obtain hi | hx := h.inside
  · exact hi
  · exfalso
    obtain ⟨_, hnone, _⟩ := h.inv.at hx
    have hd := step_did hok
    generalize machine.step s e = s' at hd
    cases hd with
    | forkFails hforks =>
      obtain ⟨j, hj, _⟩ := forking_of_forks hforks
      rw [hx] at hj
      cases hj
    | fork i pid hp _ _ _ => rw [hx] at hp; cases hp
    | signal hp => rw [hx] at hp; cases hp
    | handled hp => rw [hx] at hp; cases hp
    | terminated _ ht => rw [hx] at ht; cases ht
    | kill i hp _ => rw [hx] at hp; cases hp
    | wait pid hp _ => rw [hx] at hp; cases hp
    | echild hp _ => rw [hx] at hp; cases hp
    | exit pid hpid =>
      rw [hnone] at hpid
      rcases hpid with hpid | hpid
      · cases hpid
      · cases hpid

theorem Closing.step {e : Event} (h : Closing s) (hok : machine.ok s e) :
    Closing (machine.step s e) ∧ (machine.step s e).toGo < s.toGo := by
  obtain ⟨i, hi⟩ := h.killing hok
  have hinv : Inv (machine.step s e) := h.inv.did (step_did hok)
  have htogo : s.toGo = 1 + (s.pids.length - i) + work s.table := by
    rw [State.toGo, hi]
    rfl
  cases e with
  | fork pid =>
    have hforks : s.forks = true := by
      cases pid with
      | none => exact hok
      | some pid => exact hok.1
    obtain ⟨j, hj, _⟩ := forking_of_forks hforks
    rw [hi] at hj
    cases hj
  | signal =>
    have hok : s.parent = .forking s.pids.length := hok
    rw [hi] at hok
    cases hok
  | sigint =>
    have hok : s.parent.takesSigint = true := hok
    rw [hi] at hok
    cases hok
  | quit =>
    have hok : s.parent = .childMain := hok
    rw [hi] at hok
    cases hok
  | kill =>
    obtain ⟨j, hj, hlt⟩ := killing_of_kills hok
    obtain rfl : i = j := Parent.killing.inj (hi.symm.trans hj)
    have hstep : machine.step s .kill = { s with
        parent := .killing (i + 1), table := mark (s.pids.getD i 0) Status.terminate s.table
        killed := s.killed ++ [s.pids.getD i 0] } := by
      show PreforkEnd.step s .kill = _
      simp only [PreforkEnd.step, hi]
    rw [hstep] at hinv ⊢
    refine ⟨⟨hinv, .inl ⟨i + 1, rfl⟩⟩, ?_⟩
    have hwork : work (mark (s.pids.getD i 0) Status.terminate s.table) = work s.table :=
      Children.work_mark_eq Status.work_terminate _
    rw [htogo]
    show 1 + (s.pids.length - (i + 1)) + work (mark _ _ _) < _
    omega
  | wait pid =>
    cases pid with
    | none => exact ⟨⟨hinv, .inr rfl⟩, by rw [htogo]; show 0 + work s.table < _; omega⟩
    | some pid =>
      refine ⟨⟨hinv, .inl ⟨i, hi⟩⟩, ?_⟩
      have hlt := Children.work_reap_lt hok.2
      rw [htogo]
      show s.parent.toGo s.pids.length + work (reap pid s.table) < _
      rw [hi]
      show 1 + (s.pids.length - i) + _ < _
      omega
  | exit pid =>
    refine ⟨⟨hinv, .inl ⟨i, hi⟩⟩, ?_⟩
    have hlt : work (mark pid (fun _ => .zombie) s.table) < work s.table := by
      rcases hok with hpid | hpid
      · exact Children.work_mark_lt Status.work_zombie_le hpid Nat.one_lt_two
      · exact Children.work_mark_lt Status.work_zombie_le hpid Nat.one_lt_two
    rw [htogo]
    show s.parent.toGo s.pids.length + work (mark pid (fun _ => .zombie) s.table) < _
    rw [hi]
    show 1 + (s.pids.length - i) + _ < _
    omega

theorem Closing.ends (h : Closing s) (hstuck : closing.Stuck s) :
    s.parent = .exited ∧ s.table = [] := by
  obtain ⟨i, hi⟩ | hx := h.inside
  · exfalso
    obtain ⟨hle, _, _, _, hrun⟩ := h.inv.at hi
    by_cases hlt : i < s.pids.length
    · refine hstuck .kill ⟨?_, fun pid he => by cases he⟩
      show s.kills = true
      unfold State.kills
      rw [hi]
      exact decide_eq_true hlt
    · obtain rfl : i = s.pids.length := Nat.le_antisymm hle (Nat.not_lt.mp hlt)
      cases ht : s.table with
      | nil => exact hstuck (.wait none) ⟨⟨hi, ht⟩, fun pid he => by cases he⟩
      | cons c t =>
        obtain ⟨pid, x⟩ := c
        have hmem : (pid, x) ∈ s.table := by
          rw [ht]
          exact List.mem_cons_self
        cases x with
        | running =>
          -- every child has been killed
          have hdrop := hrun pid hmem
          rw [List.drop_length] at hdrop
          cases hdrop
        | dying =>
          refine hstuck (.exit pid) ⟨.inr hmem, fun p he => ?_⟩
          obtain rfl : pid = p := Event.exit.inj he
          exact hmem
        | zombie => exact hstuck (.wait (some pid)) ⟨⟨hi, hmem⟩, fun p he => by cases he⟩
  · exact ⟨hx, (h.inv.at hx).2.1⟩

theorem pids_length (nchildren : Nat) {es : List Event}
    (hv : machine.Valid (start nchildren) es) :
    (machine.run (start nchildren) es).pids.length = nchildren := by
  refine Machine.run_inv (M := machine) (I := fun s => s.pids.length = nchildren) ?_
    List.length_replicate hv
  intro s e h hok
  have hd := step_did hok
  generalize machine.step s e = s' at hd
  cases hd with
  | fork i pid _ _ _ _ => exact List.length_set.trans h
  | _ => exact h

/-- After a SIGINT that finds the handler set, whether children end before they are killed or not:
the server makes no more than so many steps, and as long as it has not exited, with every child
waited for, one is sure to come. -/
theorem sigint_ends (nchildren : Nat) (es : List Event) (hv : machine.Valid (start nchildren) es)
    (hp : (machine.run (start nchildren) es).parent = .pausing) :
    machine.Ends (3 * nchildren + 1) (fun s => s.parent = .exited ∧ s.table = [])
        (machine.run (start nchildren) (es ++ [.sigint])) ∧
      ∀ s, machine.Reaches (machine.run (start nchildren) (es ++ [.sigint])) s →
        closing.Stuck s → s.parent = .exited ∧ s.table = [] := by
  have hlen := pids_length nchildren hv
  have hinv := (runs_inv nchildren hv).last
  rw [Machine.run_append]
  generalize machine.run (start nchildren) es = s at hp hlen hinv
  have hstep : machine.run s [.sigint] = { s with parent := .killing 0 } := by
    show ({ s with parent := _ } : State) = _
    rw [if_pos hp]
  have hkeys := (hinv.at hp).1
  rw [hstep]
  have hclosing : Closing { s with parent := .killing 0 } :=
    ⟨hinv.did (.handled hp), .inl ⟨0, rfl⟩⟩
  have hkeep : ∀ s e, Closing s → machine.ok s e → Closing (machine.step s e) :=
    fun _ _ h hok => (h.step hok).1
  constructor
  · have hends := Machine.ends_of_measure (M := machine) (I := Closing) State.toGo hkeep
      (fun _ _ h hok => (h.step hok).2)
      (fun s h hstuck => h.ends fun e hok => hstuck e hok.1) hclosing
    have htogo : ({ s with parent := .killing 0 } : State).toGo ≤ 3 * nchildren + 1 := by
      have hwork := Children.work_le s.table
      rw [hkeys] at hwork
      show 1 + (s.pids.length - 0) + work s.table ≤ _
      omega
    exact ⟨fun is hv => (hends.bounded is hv).trans htogo, hends.final⟩
  · rintro s' ⟨is, hv', rfl⟩ hstuck
    exact (Machine.run_inv (M := machine) (I := Closing) hkeep hclosing hv').ends hstuck

theorem sigint_ends_two :
    machine.Ends 7 (fun s => s.parent = .exited ∧ s.table = [])
        (machine.run (start 2) [.fork (some 7), .fork (some 9), .signal, .exit 9, .sigint]) ∧
      ∀ s, machine.Reaches
          (machine.run (start 2) [.fork (some 7), .fork (some 9), .signal, .exit 9, .sigint]) s →
        closing.Stuck s → s.parent = .exited ∧ s.table = [] :=
  sigint_ends 2 [.fork (some 7), .fork (some 9), .signal, .exit 9] (by decide) (by decide)

end

end PreforkEnd
end Unpvol1
