import Unpvol1.Lib.Machine

/-!
# Pool.PoolCgi

`main` of the CGI pool (`15-2pool_cgi.cpp`), the parent: the table `sub_process` that the fork loop
fills, and the events of its main loop. A step is a return of `epoll_wait`, an event, or a signal
byte.

* `start`        — the table behind the fork loop, a failed `fork` leaving its -1.
* `step`, `acts` — what an event does to the table, and the calls made for it.
* `Aims`         — who is told of a connection, and who is killed.
* `run_pids`, `run_counter` — table and counter after any run, read off the inputs.
* `aims_iff`     — the exact condition: no connection falls on an entry, and no SIGTERM or SIGINT on
  a table, with a failed `fork` or a child that has been reaped.
-/

namespace Unpvol1
namespace PoolCgi

def PROCESS_COUNT : Nat := 5

/-- `pipefd0` and `pipefd1` say which ends of the pipe are open in the parent. -/
structure ProcessInPool where
  pid : Int
  pipefd0 : Bool
  pipefd1 : Bool
deriving DecidableEq

/-- Behind `epoll_wait`, before the first call of it, or after it failed. -/
inductive Phase where
  | outer
  | batch
  | broken
deriving DecidableEq

structure State where
  subProcess : List ProcessInPool
  subProcessCounter : Nat
  stopServer : Bool
  phase : Phase

inductive Step where
  /-- `epoll_wait` returns; it fails with another error than EINTR, or not. -/
  | wait (failed : Bool)
  /-- An event of `listenfd`. -/
  | listen
  /-- The signal byte SIGCHLD, with the results of `waitpid`. -/
  | sigchld (results : List Int)
  | sigterm
  | sigint
  /-- Another event or signal byte, or a `recv` of signals that brings nothing. -/
  | other
deriving DecidableEq

/-- The calls of the parent that concern entry `i`: `send` to `pipefd[0]`, its `close`, and
`kill( pid, SIGTERM )`. -/
inductive Act where
  | send (i : Nat)
  | close (i : Nat)
  | kill (pid : Int)
deriving DecidableEq

/-- The body of the fork loop, where `fork` returns `pid` in the parent. -/
def forked (pid : Int) : ProcessInPool :=
  if pid < 0 then { pid := pid, pipefd0 := true, pipefd1 := true }
  else { pid := pid, pipefd0 := true, pipefd1 := false }

/-- The loop over the table for one child. -/
def reap (pid : Int) (ps : List ProcessInPool) : List ProcessInPool :=
  ps.map fun p => if p.pid = pid then { p with pid := -1, pipefd0 := false } else p

/-- The entries whose pipe that loop closes. -/
def closes (pid : Int) (ps : List ProcessInPool) : List Act :=
  ((List.range ps.length).filter fun i => (ps[i]?).any fun p => p.pid = pid).map .close

/-- The `waitpid` loop. -/
def reapLoop : List Int → List ProcessInPool → List ProcessInPool × List Act
  | [], ps => (ps, [])
  | pid :: results, ps =>
    if pid > 0 then
      let (ps', acts) := reapLoop results (reap pid ps)
      (ps', closes pid ps ++ acts)
    else (ps, [])

def handle (s : State) : Step → State × List Act
  | .wait failed => ({ s with phase := if failed then .broken else .batch }, [])
  | .listen =>
    ({ s with subProcessCounter := (s.subProcessCounter + 1) % PROCESS_COUNT },
      [.send s.subProcessCounter])
  | .sigchld results =>
    let (ps, acts) := reapLoop results s.subProcess
    ({ s with subProcess := ps, stopServer := ps.all fun p => p.pid = -1 }, acts)
  | .sigterm => (s, s.subProcess.map fun p => .kill p.pid)
  | .sigint => (s, s.subProcess.map fun p => .kill p.pid)
  | .other => (s, [])

def step (s : State) (e : Step) : State := (handle s e).1

def acts (s : State) (e : Step) : List Act := (handle s e).2

/-- `stop_server` is looked at before `epoll_wait` only: the events and signals it came with are
handled to their end. -/
def enabled (s : State) : Step → Bool
  | .wait _ => s.phase ≠ .broken ∧ s.stopServer = false
  | _ => s.phase = .batch

def machine : Machine State Step := ⟨step, fun s e => enabled s e = true⟩

instance (s : State) (e : Step) : Decidable (machine.ok s e) :=
  inferInstanceAs (Decidable (enabled s e = true))

/-- What `fork` returns, in the order of the loop. -/
abbrev Forks :=
  { pids : List Int // pids.length = PROCESS_COUNT ∧ ∀ pid ∈ pids, pid = -1 ∨ 0 < pid }

def start (forks : Forks) : State where
  subProcess := forks.1.map forked
  subProcessCounter := 0
  stopServer := false
  phase := .outer

def State.pids (s : State) : List Int := s.subProcess.map ProcessInPool.pid

/-- Entry `i` is that of a child recorded alive. -/
def State.alive (s : State) (i : Nat) : Bool := (s.pids[i]?).any fun pid => pid ≠ -1

def killed (acts : List Act) : List Int :=
  acts.filterMap fun
    | .kill pid => some pid
    | _ => none

def Step.terminates : Step → Bool
  | .sigterm => true
  | .sigint => true
  | _ => false

/-- Connections are announced to children recorded alive; SIGTERM and SIGINT kill these, and nothing
else kills any. -/
structure Aims (s : State) (e : Step) : Prop where
  sends : ∀ i, Act.send i ∈ acts s e → s.alive i = true
  kills : killed (acts s e) = if e.terminates then s.pids.filter fun pid => pid ≠ -1 else []

/-! ## What happened before -/

/-- How many connections were announced. -/
def announced (es : List Step) : Nat := es.countP fun e => e = .listen

/-- The children that `waitpid` returned. -/
def reaped : List Step → List Int
  | [] => []
  | .sigchld results :: es => results.takeWhile (fun pid => pid > 0) ++ reaped es
  | _ :: es => reaped es

/-- The child forked as number `i` was forked, and has not been reaped in `es`. -/
def Kept (forks : Forks) (es : List Step) (i : Nat) : Prop :=
  ∃ pid, forks.1[i]? = some pid ∧ pid ≠ -1 ∧ pid ∉ reaped es

/-- A connection falls on a child that is kept; SIGTERM and SIGINT come while all are. -/
def Unharmed (forks : Forks) (es : List Step) : Prop :=
  ∀ xs e ys, es = xs ++ e :: ys →
    (e = .listen → Kept forks xs (announced xs % PROCESS_COUNT)) ∧
      (e.terminates = true → ∀ i < PROCESS_COUNT, Kept forks xs i)

section
variable {s : State}

/-! ## The table -/

/-- A pid behind the deaths of `dead`. -/
def mark (dead : List Int) (pid : Int) : Int := if pid ∈ dead then -1 else pid

theorem mark_nil (pid : Int) : mark [] pid = pid := if_neg List.not_mem_nil

theorem mark_ne {dead : List Int} {pid : Int} : mark dead pid ≠ -1 ↔ pid ≠ -1 ∧ pid ∉ dead := by
  unfold mark
  by_cases h : pid ∈ dead
  · simp [h]
  · simp [h]

theorem mark_append (dead dead' : List Int) (pid : Int) :
    mark (dead ++ dead') pid = mark dead' (mark dead pid) := by
  unfold mark
  by_cases h : pid ∈ dead
  · simp [h]
  · simp [h]

theorem pid_forked (pid : Int) : (forked pid).pid = pid := by
  unfold forked
  split <;> rfl

theorem reap_pids (pid : Int) (ps : List ProcessInPool) :
    (reap pid ps).map ProcessInPool.pid = (ps.map ProcessInPool.pid).map (mark [pid]) := by
  rw [reap, List.map_map, List.map_map]
  refine List.map_congr_left fun p _ => ?_
  by_cases h : p.pid = pid
  · simp [mark, h]
  · simp [mark, h]

/-- The `waitpid` loop, by induction on its results. -/
theorem reapLoop_pids (results : List Int) (ps : List ProcessInPool) :
    (reapLoop results ps).1.map ProcessInPool.pid =
      (ps.map ProcessInPool.pid).map (mark (results.takeWhile fun pid => pid > 0)) := by
  induction results generalizing ps with
  | nil =>
    rw [List.takeWhile_nil, List.map_congr_left fun pid _ => mark_nil pid, List.map_id']
    rfl
  | cons pid results ih =>
    by_cases hpid : pid > 0
    · simp only [reapLoop, hpid, if_true]
      rw [ih, reap_pids, List.map_map, List.takeWhile_cons_of_pos (by simpa using hpid)]
      exact List.map_congr_left fun p _ => (mark_append [pid] _ p).symm
    · simp only [reapLoop, hpid, if_false]
      rw [List.takeWhile_cons_of_neg (by simpa using hpid),
        List.map_congr_left fun pid _ => mark_nil pid, List.map_id']

theorem reapLoop_closes (results : List Int) (ps : List ProcessInPool) :
    ∀ a ∈ (reapLoop results ps).2, ∃ i, a = .close i := by
  induction results generalizing ps with
  | nil => exact fun a ha => nomatch ha
  | cons pid results ih =>
    by_cases hpid : pid > 0
    · simp only [reapLoop, hpid, if_true]
      intro a ha
      rcases List.mem_append.mp ha with ha | ha
      · obtain ⟨i, _, rfl⟩ := List.mem_map.mp ha
        exact ⟨i, rfl⟩
      · exact ih (reap pid ps) a ha
    · simp only [reapLoop, hpid, if_false]
      exact fun a ha => nomatch ha

/-! ## Runs -/

/-- One step, for the table. -/
theorem step_pids (s : State) (e : Step) : (step s e).pids = s.pids.map (mark (reaped [e])) := by
  have hnil : s.pids = s.pids.map (mark []) := by
    rw [List.map_congr_left fun pid _ => mark_nil pid, List.map_id']
  cases e with
  | sigchld results =>
    show (reapLoop results s.subProcess).1.map ProcessInPool.pid = _
    rw [reapLoop_pids, reaped, reaped, List.append_nil]
    rfl
  | wait failed => exact hnil
  | listen => exact hnil
  | sigterm => exact hnil
  | sigint => exact hnil
  | other => exact hnil

theorem reaped_cons (e : Step) (es : List Step) : reaped (e :: es) = reaped [e] ++ reaped es := by
  cases e with
  | sigchld results => simp only [reaped, List.append_nil]
  | _ => rfl

/-- The table after a run, by induction on the run. -/
theorem run_pids (s : State) (es : List Step) :
    (machine.run s es).pids = s.pids.map (mark (reaped es)) := by
  induction es generalizing s with
  | nil =>
    rw [reaped, List.map_congr_left fun pid _ => mark_nil pid, List.map_id']
    rfl
  | cons e es ih =>
    have hstep : (machine.step s e).pids = s.pids.map (mark (reaped [e])) := step_pids s e
    rw [Machine.run_cons, ih, hstep, List.map_map, reaped_cons e es]
    exact List.map_congr_left fun pid _ => (mark_append _ _ pid).symm

/-- The counter goes round the table with the connections. -/
theorem run_counter (h : s.subProcessCounter < PROCESS_COUNT) (es : List Step) :
    (machine.run s es).subProcessCounter =
      (s.subProcessCounter + announced es) % PROCESS_COUNT := by
  induction es generalizing s with
  | nil => exact (Nat.mod_eq_of_lt h).symm
  | cons e es ih =>
    rw [Machine.run_cons, announced, List.countP_cons]
    cases e with
    | listen =>
      rw [ih (Nat.mod_lt _ (by decide))]
      show ((s.subProcessCounter + 1) % PROCESS_COUNT + announced es) % PROCESS_COUNT = _
      rw [Nat.mod_add_mod]
      simp only [decide_true, if_true, announced]
      congr 1
      omega
    | _ => exact ih h

theorem start_pids (forks : Forks) : (start forks).pids = forks.1 := by
  have hforked : ProcessInPool.pid ∘ forked = id := funext pid_forked
  rw [State.pids, start, List.map_map, hforked, List.map_id]

/-- An entry is recorded alive just when its child has been kept. -/
theorem alive_iff (forks : Forks) (es : List Step) (i : Nat) :
    (machine.run (start forks) es).alive i = true ↔ Kept forks es i := by
  rw [State.alive, run_pids, start_pids, List.getElem?_map, Option.any_map, Option.any_eq_true]
  simp only [decide_eq_true_eq, mark_ne]
  rfl

/-! ## The calls -/

theorem killed_kills (ps : List ProcessInPool) :
    killed (ps.map fun p => .kill p.pid) = ps.map ProcessInPool.pid := by
  induction ps with
  | nil => rfl
  | cons p ps ih => exact congrArg (p.pid :: ·) ih

theorem killed_closes {acts : List Act} (h : ∀ a ∈ acts, ∃ i, a = .close i) : killed acts = [] := by
  refine List.filterMap_eq_nil_iff.mpr fun a ha => ?_
  obtain ⟨i, rfl⟩ := h a ha
  rfl

/-- SIGTERM and SIGINT aim well just when all are alive. -/
theorem kills_iff : s.pids = (s.pids.filter fun pid => pid ≠ -1) ↔
    ∀ i < s.pids.length, s.alive i = true := by
  rw [eq_comm, List.filter_eq_self, List.forall_mem_iff_forall_getElem]
  refine forall_congr' fun i => forall_congr' fun hi => ?_
  rw [State.alive, List.getElem?_eq_getElem hi, Option.any_some]

/-- The condition for one step, on the state before it. -/
theorem aims_step (s : State) (e : Step) :
    Aims s e ↔ (e = .listen → s.alive s.subProcessCounter = true) ∧
      (e.terminates = true → ∀ i < s.pids.length, s.alive i = true) := by
  have hkills : (∀ i, Act.send i ∈ (s.subProcess.map fun p => Act.kill p.pid) →
      s.alive i = true) := by
    intro i hi
    obtain ⟨p, _, hp⟩ := List.mem_map.mp hi
    cases hp
  cases e with
  | listen =>
    constructor
    · intro h
      exact ⟨fun _ => h.sends s.subProcessCounter (List.mem_singleton_self _), nofun⟩
    · rintro ⟨h, _⟩
      refine ⟨fun i hi => ?_, rfl⟩
      cases List.mem_singleton.mp hi
      exact h rfl
  | sigterm =>
    rw [← kills_iff]
    constructor
    · intro h
      exact ⟨nofun, fun _ => (killed_kills s.subProcess).symm.trans h.kills⟩
    · rintro ⟨_, h⟩
      exact ⟨hkills, (killed_kills s.subProcess).trans (h rfl)⟩
  | sigint =>
    rw [← kills_iff]
    constructor
    · intro h
      exact ⟨nofun, fun _ => (killed_kills s.subProcess).symm.trans h.kills⟩
    · rintro ⟨_, h⟩
      exact ⟨hkills, (killed_kills s.subProcess).trans (h rfl)⟩
  | sigchld results =>
    have hcloses := reapLoop_closes results s.subProcess
    refine iff_of_true ⟨fun i hi => ?_, killed_closes hcloses⟩ ⟨nofun, nofun⟩
    obtain ⟨j, hj⟩ := hcloses _ hi
    cases hj
  | wait failed => exact iff_of_true ⟨nofun, rfl⟩ ⟨nofun, nofun⟩
  | other => exact iff_of_true ⟨nofun, rfl⟩ ⟨nofun, nofun⟩

/-- Every call of a run is aimed at children recorded alive just when each connection falls on a
child that was forked and is not yet reaped, and SIGTERM and SIGINT come only where all five are
such. -/
theorem aims_iff (forks : Forks) (es : List Step) :
    machine.Each Aims (start forks) es ↔ Unharmed forks es := by
  rw [Machine.each_iff_split]
  refine forall_congr' fun xs => forall_congr' fun e => forall_congr' fun ys =>
    forall_congr' fun _ => ?_
  have hcounter : (machine.run (start forks) xs).subProcessCounter =
      announced xs % PROCESS_COUNT := by
    rw [run_counter (s := start forks) (Nat.zero_lt_succ 4)]
    exact congrArg (· % PROCESS_COUNT) (Nat.zero_add _)
  have hlength : (machine.run (start forks) xs).pids.length = PROCESS_COUNT := by
    rw [run_pids, List.length_map, start_pids, forks.2.1]
  rw [aims_step, hlength, hcounter]
  simp only [alive_iff]

end

/-- The second `fork` fails. -/
def oneMissing : Forks := ⟨[101, -1, 103, 104, 105], by decide⟩

/-- The second connection is announced to nobody, and SIGTERM is sent to every process. -/
theorem not_aims :
    let es : List Step := [.wait false, .listen, .listen, .wait false, .sigterm]
    machine.Valid (start oneMissing) es ∧ ¬machine.Each Aims (start oneMissing) es ∧
      acts (machine.run (start oneMissing) [.wait false, .listen]) .listen = [.send 1] ∧
      Act.kill (-1) ∈ acts (machine.run (start oneMissing) (es.take 4)) .sigterm := by
  refine ⟨by decide, ?_, by decide, by decide⟩
  rintro ⟨_, _, h, _⟩
  exact absurd (h.sends 1 (List.mem_singleton_self _)) (by decide)

end PoolCgi
end Unpvol1
