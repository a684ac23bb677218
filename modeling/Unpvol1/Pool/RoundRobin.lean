import Unpvol1.Pool.Processpool

/-!
# Pool.RoundRobin

`run_parent` of the process pool of 15-1 (`15-1processpool.h`) with the deaths of its children. A
step is the call of `epoll_wait`, or one event of the batch it returned.

* `State.found`    — the child the search ends at: the first one with a pid from
  `sub_process_counter` on, if there is any (`search_first`).
* `sigchld`        — the children that are reaped lose their pid; `m_stop` is decided again.
* `step_did`       — a step is silent, or it tells the child that was found.
* `Swept`          — between two notifications to a child: the children behind it up to the counter
  have been told once.
* `dispatch_round_robin` — who is told, when the parent stops, and how often each child is told.
-/

namespace Unpvol1
namespace RunParent

open Processpool (search search_first exists_round round_inj next_mod last_round)

/-- A byte of the signal pipe. `sigchld` comes with what `waitpid` returns until there is no more
child to reap. -/
inductive Signal where
  | sigchld (reaped : List Int)
  | sigterm
  | sigint
  | other
deriving DecidableEq

/-- An event `epoll_wait` reports: of `m_listenfd`, of `sig_pipefd[0]` with the signals `recv`
returns (none when it fails), or another one. -/
inductive Event where
  | listen
  | signals (signals : List Signal)
  | other
deriving DecidableEq

/-- What the parent does to its children: the `send` to `m_pipefd[0]` of child `i`, its `close`, and
`kill( pid, SIGTERM )`. -/
inductive Act where
  | send (i : Nat)
  | join (i : Nat)
  | kill (pid : Int)
deriving DecidableEq

/-- `pids` are the `m_pid` of `m_sub_process`, -1 where the child is dead; `batch` is what is left
of `events`; `broken` says that `epoll_wait` failed. -/
structure State where
  pids : List Int
  subProcessCounter : Nat
  stop : Bool
  batch : List Event
  broken : Bool
  log : List Act
deriving DecidableEq

inductive Step where
  /-- `epoll_wait`: `none` is an error other than EINTR, which returns no events. -/
  | wait (events : Option (List Event))
  | handle
deriving DecidableEq

def State.alive (s : State) (i : Nat) : Bool := (s.pids[i]?).any fun pid => pid ≠ -1

/-- The index the `do` loop ends with. -/
def State.found (s : State) : Nat :=
  search s.alive s.pids.length s.subProcessCounter s.pids.length s.subProcessCounter

/-- An event of `m_listenfd`; where no child is left, the rest of the batch is dropped. -/
def listen (s : State) : State :=
  let i := s.found
  if s.alive i then
    { s with
      subProcessCounter := (i + 1) % s.pids.length
      log := s.log ++ [.send i] }
  else { s with stop := true, batch := [] }

/-- One pid from `waitpid`. -/
def reap (s : State) (pid : Int) : State :=
  { s with
    pids := s.pids.map fun p => if p = pid then -1 else p
    log := s.log ++ ((List.range s.pids.length).filter fun i => s.pids[i]? = some pid).map .join }

def sigchld (reaped : List Int) (s : State) : State :=
  let s := reaped.foldl reap s
  { s with stop := s.pids.all fun pid => pid = -1 }

/-- SIGTERM and SIGINT. -/
def killAll (s : State) : State :=
  { s with log := s.log ++ (s.pids.filter fun pid => pid ≠ -1).map .kill }

def signal (s : State) : Signal → State
  | .sigchld reaped => sigchld reaped s
  | .sigterm => killAll s
  | .sigint => killAll s
  | .other => s

def event (s : State) : Event → State
  | .listen => listen s
  | .signals signals => signals.foldl signal s
  | .other => s

def step (s : State) : Step → State
  | .wait none => { s with broken := true }
  | .wait (some events) => { s with batch := events }
  | .handle =>
    match s.batch with
    | [] => s
    | e :: batch => event { s with batch := batch } e

/-- The `while` loop is entered again, or its `for` loop goes on. -/
def enabled (s : State) : Step → Bool
  | .wait _ => s.batch = [] ∧ s.stop = false ∧ s.broken = false
  | .handle => s.batch ≠ []

def machine : Machine State Step := ⟨step, fun s e => enabled s e = true⟩

instance (s : State) (e : Step) : Decidable (machine.ok s e) :=
  inferInstanceAs (Decidable (enabled s e = true))

/-- The pids `fork` returned. -/
abbrev Pids := { pids : List Int // pids ≠ [] ∧ ∀ pid ∈ pids, 0 < pid }

def start (pids : Pids) : State where
  pids := pids.1
  subProcessCounter := 0
  stop := false
  batch := []
  broken := false
  log := []

/-- The children told of a connection. -/
def notified (log : List Act) : List Nat :=
  log.filterMap fun
    | .send i => some i
    | _ => none

/-- The children told on the way from `s` to `s'`. -/
def since (s s' : State) : List Nat := (notified s'.log).drop (notified s.log).length

theorem notified_append (log acts : List Act) :
    notified (log ++ acts) = notified log ++ notified acts := List.filterMap_append

/-! ## What is claimed of a run -/

/-- Step `e` handles an event of `m_listenfd`. -/
def State.listens (s : State) (e : Step) : Prop := e = .handle ∧ s.batch.head? = some .listen

/-- The loops are left. -/
def State.stops (s : State) : Prop := s.stop = true ∧ s.batch = []

def State.allDead (s : State) : Prop := ∀ pid ∈ s.pids, pid = -1

/-- Only children with a pid are told; at an event of `m_listenfd` one child is told, or the parent
stops instead, the latter just when all children are dead. -/
structure Dispatches (s : State) (e : Step) : Prop where
  alive : ∀ i ∈ since s (machine.step s e), s.alive i = true
  stops : s.listens e →
    ((machine.step s e).stops ∧ since s (machine.step s e) = [] ↔ s.allDead)
  sends : s.listens e →
    ((machine.step s e).stop = false ∧ (∃ i, since s (machine.step s e) = [i]) ↔ ¬s.allDead)

/-- The event handled next is answered by telling child `c`. -/
def State.tells (s : State) (c : Nat) : Prop := since s (machine.step s .handle) = [c]

/-- Between two notifications to `c`, every other child that is alive throughout is told once. -/
def Fair (s : State) (es : List Step) : Prop :=
  ∀ xs ys zs c, es = xs ++ .handle :: (ys ++ .handle :: zs) → (machine.run s xs).tells c →
    let first := machine.run s (xs ++ [.handle])
    c ∉ since first (machine.run first ys) → (machine.run first ys).tells c →
    ∀ j, j < first.pids.length → j ≠ c → machine.Always (fun s => s.alive j = true) first ys →
      (since first (machine.run first ys)).count j = 1

/-! ## The steps -/

section
variable {s s' s'' : State}

/-- Nobody is told; children may die. -/
structure Silent (s s' : State) : Prop where
  counter : s'.subProcessCounter = s.subProcessCounter
  size : s'.pids.length = s.pids.length
  dies : ∀ i, s'.alive i = true → s.alive i = true
  log : notified s'.log = notified s.log

/-- The child that was found is told. -/
structure Told (s s' : State) : Prop where
  found : s.alive s.found = true
  pids : s'.pids = s.pids
  counter : s'.subProcessCounter = (s.found + 1) % s.pids.length
  log : notified s'.log = notified s.log ++ [s.found]

theorem Silent.trans (h : Silent s s') (h' : Silent s' s'') : Silent s s'' where
  counter := h'.counter.trans h.counter
  size := h'.size.trans h.size
  dies := fun i hi => h.dies i (h'.dies i hi)
  log := h'.log.trans h.log

theorem Silent.of_pids (hcounter : s'.subProcessCounter = s.subProcessCounter)
    (hpids : s'.pids = s.pids) (hlog : notified s'.log = notified s.log) : Silent s s' where
  counter := hcounter
  size := congrArg List.length hpids
  dies := by
    intro i hi
    rwa [State.alive, hpids] at hi
  log := hlog

theorem alive_iff {i : Nat} : s.alive i = true ↔ ∃ pid, s.pids[i]? = some pid ∧ pid ≠ -1 := by
  rw [State.alive, Option.any_eq_true]
  simp only [decide_eq_true_eq]

theorem alive_lt {i : Nat} (h : s.alive i = true) : i < s.pids.length := by
  obtain ⟨pid, hpid, _⟩ := alive_iff.mp h
  exact (List.getElem?_eq_some_iff.mp hpid).1

theorem notified_joins (l : List Nat) : notified (l.map .join) = [] :=
  List.filterMap_eq_nil_iff.mpr fun a ha => by
    obtain ⟨i, _, rfl⟩ := List.mem_map.mp ha
    rfl

theorem notified_kills (l : List Int) : notified (l.map .kill) = [] :=
  List.filterMap_eq_nil_iff.mpr fun a ha => by
    obtain ⟨pid, _, rfl⟩ := List.mem_map.mp ha
    rfl

theorem reap_silent (s : State) (pid : Int) : Silent s (reap s pid) where
  counter := rfl
  size := List.length_map _
  dies := by
    intro i hi
    obtain ⟨p, hp, hne⟩ := alive_iff.mp hi
    obtain ⟨q, hq, rfl⟩ : ∃ q, s.pids[i]? = some q ∧ (if q = pid then -1 else q) = p := by
      simpa only [reap, List.getElem?_map, Option.map_eq_some_iff] using hp
    refine alive_iff.mpr ⟨q, hq, fun he => hne ?_⟩
    rw [he]
    split
    · rfl
    · rfl
  log := by
    rw [reap, notified_append, notified_joins, List.append_nil]

/-- The state has changed to one that nobody was told on the way to, by induction on the pids. -/
theorem reaped_silent (reaped : List Int) (s : State) : Silent s (reaped.foldl reap s) := by
  induction reaped generalizing s with
  | nil => exact .of_pids rfl rfl rfl
  | cons pid reaped ih => exact (reap_silent s pid).trans (ih (reap s pid))

theorem signal_silent (s : State) (x : Signal) : Silent s (signal s x) := by
  cases x with
  | sigchld reaped => exact (reaped_silent reaped s).trans (.of_pids rfl rfl rfl)
  | sigterm =>
    refine .of_pids rfl rfl ?_
    rw [signal, killAll, notified_append, notified_kills, List.append_nil]
  | sigint =>
    refine .of_pids rfl rfl ?_
    rw [signal, killAll, notified_append, notified_kills, List.append_nil]
  | other => exact .of_pids rfl rfl rfl

theorem signals_silent (signals : List Signal) (s : State) :
    Silent s (signals.foldl signal s) := by
  induction signals generalizing s with
  | nil => exact .of_pids rfl rfl rfl
  | cons x signals ih => exact (signal_silent s x).trans (ih (signal s x))

theorem listen_did (s : State) : Told s (listen s) ∨ Silent s (listen s) := by
  unfold listen
  by_cases h : s.alive s.found = true
  · simp only [h, if_true]
    exact .inl ⟨h, rfl, rfl, notified_append s.log [.send s.found]⟩
  · simp only [h, if_false, Bool.false_eq_true]
    exact .inr (.of_pids rfl rfl rfl)

theorem step_did (s : State) (e : Step) :
    Told s (machine.step s e) ∨ Silent s (machine.step s e) := by
  cases e with
  | wait events =>
    cases events with
    | none => exact .inr (.of_pids rfl rfl rfl)
    | some events => exact .inr (.of_pids rfl rfl rfl)
  | handle =>
    show Told s (step s .handle) ∨ Silent s (step s .handle)
    unfold step
    cases s.batch with
    | nil => exact .inr (.of_pids rfl rfl rfl)
    | cons e batch =>
      have hframe : Silent s { s with batch := batch } := .of_pids rfl rfl rfl
      cases e with
      | listen =>
        rcases listen_did { s with batch := batch } with h | h
        · exact .inl ⟨h.found, h.pids, h.counter, h.log⟩
        · exact .inr (hframe.trans h)
      | signals signals => exact .inr (hframe.trans (signals_silent signals _))
      | other => exact .inr hframe

theorem Silent.since (h : Silent s s') : since s s' = [] := by
  rw [RunParent.since, h.log, List.drop_length]

theorem Told.since (h : Told s s') : since s s' = [s.found] := by
  rw [RunParent.since, h.log, List.drop_left]

/-! ## The invariant -/

/-- The counter is an index, and the parent does not stop while a child has a pid. -/
structure Inv (s : State) : Prop where
  counter_lt : s.subProcessCounter < s.pids.length
  stopped : s.stop = true → s.allDead

theorem allDead_iff : s.allDead ↔ ∀ i, s.alive i = false := by
  constructor
  · intro h i
    rw [← Bool.not_eq_true, alive_iff]
    rintro ⟨pid, hpid, hne⟩
    exact hne (h pid (List.mem_of_getElem? hpid))
  · intro h pid hpid
    obtain ⟨i, hi⟩ := List.getElem?_of_mem hpid
    by_contra hne
    have halive := alive_iff.mpr ⟨pid, hi, hne⟩
    rw [h i] at halive
    cases halive

/-- The search finds a child with a pid if there is one. -/
theorem Inv.found (h : Inv s) : s.alive s.found = true ↔ ¬s.allDead := by
  constructor
  · intro hfound hdead
    rw [allDead_iff.mp hdead] at hfound
    cases hfound
  · intro hnot
    rw [allDead_iff, not_forall] at hnot
    obtain ⟨j, hj⟩ := hnot
    rw [Bool.not_eq_false] at hj
    exact Processpool.search_finds h.counter_lt (alive_lt hj) hj

theorem Inv.silent (h : Inv s) (hs : Silent s s') (hstop : s'.stop = true → s'.allDead) :
    Inv s' where
  counter_lt := by
    rw [hs.counter, hs.size]
    exact h.counter_lt
  stopped := hstop

theorem signal_inv (h : Inv s) (x : Signal) : Inv (signal s x) := by
  refine h.silent (signal_silent s x) ?_
  cases x with
  | sigchld reaped =>
    intro hstop pid hpid
    exact of_decide_eq_true (List.all_eq_true.mp hstop pid hpid)
  | sigterm => exact h.stopped
  | sigint => exact h.stopped
  | other => exact h.stopped

theorem signals_inv (h : Inv s) (signals : List Signal) : Inv (signals.foldl signal s) := by
  induction signals generalizing s with
  | nil => exact h
  | cons x signals ih => exact ih (signal_inv h x)

theorem listen_inv (h : Inv s) : Inv (listen s) := by
  unfold listen
  by_cases hlive : s.alive s.found = true
  · simp only [hlive, if_true]
    exact ⟨Nat.mod_lt _ (Nat.zero_lt_of_lt h.counter_lt), h.stopped⟩
  · simp only [hlive, if_false, Bool.false_eq_true]
    exact ⟨h.counter_lt, fun _ => not_not.mp fun hno => hlive (h.found.mpr hno)⟩

theorem step_inv (h : Inv s) (e : Step) : Inv (machine.step s e) := by
  cases e with
  | wait events =>
    cases events with
    | none => exact ⟨h.counter_lt, h.stopped⟩
    | some events => exact ⟨h.counter_lt, h.stopped⟩
  | handle =>
    show Inv (step s .handle)
    unfold step
    cases s.batch with
    | nil => exact h
    | cons e batch =>
      have hframe : Inv { s with batch := batch } := ⟨h.counter_lt, h.stopped⟩
      cases e with
      | listen => exact listen_inv hframe
      | signals signals => exact signals_inv hframe signals
      | other => exact hframe

theorem start_inv (pids : Pids) : Inv (start pids) where
  counter_lt := List.length_pos_of_ne_nil pids.2.1
  stopped := Bool.noConfusion

/-! ## One step -/

theorem handle_listen {e : Step} (h : s.listens e) : ∃ batch,
    machine.step s e = listen { s with batch := batch } := by
  obtain ⟨rfl, hhead⟩ := h
  obtain ⟨batch, hbatch⟩ := List.head?_eq_some_iff.mp hhead
  refine ⟨batch, ?_⟩
  show step s .handle = _
  simp only [step, hbatch, event]

/-- An event of `m_listenfd` is answered by telling the child that was found, or by stopping. -/
theorem listens_cases (h : Inv s) {e : Step} (he : s.listens e) :
    (¬s.allDead ∧ Told s (machine.step s e) ∧ (machine.step s e).stop = false) ∨
      (s.allDead ∧ since s (machine.step s e) = [] ∧ (machine.step s e).stops) := by
  obtain ⟨batch, hstep⟩ := handle_listen he
  rw [hstep]
  by_cases hlive : s.alive s.found = true
  · have hstop : s.stop = false := by
      rw [← Bool.not_eq_true]
      exact fun hs => h.found.mp hlive (h.stopped hs)
    refine .inl ⟨h.found.mp hlive, ?_⟩
    have hlive' : State.alive { s with batch := batch } (State.found { s with batch := batch }) =
        true := hlive
    unfold listen
    simp only [hlive', if_true]
    exact ⟨⟨hlive, rfl, rfl, notified_append s.log [.send s.found]⟩, hstop⟩
  · refine .inr ⟨not_not.mp fun hno => hlive (h.found.mpr hno), ?_⟩
    have hlive' : ¬State.alive { s with batch := batch } (State.found { s with batch := batch }) =
        true := hlive
    unfold listen
    simp only [hlive', if_false, Bool.false_eq_true]
    exact ⟨List.drop_length, rfl, rfl⟩

theorem step_dispatches (h : Inv s) (e : Step) : Dispatches s e where
  alive := by
    intro i hi
    rcases step_did s e with hd | hd
    · rw [hd.since] at hi
      rw [List.mem_singleton.mp hi]
      exact hd.found
    · rw [hd.since] at hi
      cases hi
  stops := by
    intro he
    rcases listens_cases h he with ⟨hlive, hd, hstop⟩ | ⟨hdead, hsince, hstops⟩
    · refine ⟨fun hs => absurd hs.1.1 ?_, fun hdead => absurd hdead hlive⟩
      rw [hstop]
      exact Bool.noConfusion
    · exact ⟨fun _ => hdead, fun _ => ⟨hstops, hsince⟩⟩
  sends := by
    intro he
    rcases listens_cases h he with ⟨hlive, hd, hstop⟩ | ⟨hdead, _, hstops⟩
    · exact ⟨fun _ => hlive, fun _ => ⟨hstop, s.found, hd.since⟩⟩
    · refine ⟨fun hs => ?_, fun hlive => absurd hdead hlive⟩
      have hstop := hstops.1
      rw [hs.1] at hstop
      cases hstop

/-! ## Runs -/

theorem run_dies (es : List Step) (s : State) :
    ∀ i, (machine.run s es).alive i = true → s.alive i = true := by
  induction es generalizing s with
  | nil => exact fun _ h => h
  | cons e es ih =>
    intro i hi
    have hstep := ih (machine.step s e) i hi
    rcases step_did s e with hd | hd
    · rwa [State.alive, hd.pids] at hstep
    · exact hd.dies i hstep

theorem step_notified (s : State) (e : Step) :
    notified (machine.step s e).log = notified s.log ++ since s (machine.step s e) := by
  rcases step_did s e with hd | hd
  · rw [hd.since, hd.log]
  · rw [hd.since, hd.log, List.append_nil]

theorem run_notified (es : List Step) (s : State) :
    notified (machine.run s es).log = notified s.log ++ since s (machine.run s es) := by
  induction es generalizing s with
  | nil =>
    have hnil : since s s = [] := List.drop_length
    rw [Machine.run_nil, hnil, List.append_nil]
  | cons e es ih =>
    have hrun := ih (machine.step s e)
    rw [step_notified, List.append_assoc] at hrun
    rw [Machine.run_cons, since, hrun, List.drop_left]

theorem since_trans {u : List Nat} (h : notified s'.log = notified s.log ++ u)
    {v : List Nat} (h' : notified s''.log = notified s'.log ++ v) :
    since s s'' = since s s' ++ since s' s'' := by
  have hu : since s s' = u := by rw [since, h, List.drop_left]
  have hv : since s' s'' = v := by rw [since, h', List.drop_left]
  rw [hu, hv, since, h', h, List.append_assoc, List.drop_left]

/-- `c` was told in `s`, and `q` children behind it have been passed since: those of them that are
alive were told once, and nobody else was. -/
structure Swept (c : Nat) (s s' : State) (q : Nat) : Prop where
  size : s'.pids.length = s.pids.length
  le : q < s.pids.length
  counter : s'.subProcessCounter = (c + 1 + q) % s.pids.length
  log : notified s'.log = notified s.log ++ since s s'
  counts : ∀ m, m + 1 < s.pids.length → s'.alive ((c + 1 + m) % s.pids.length) = true →
    (since s s').count ((c + 1 + m) % s.pids.length) = if m < q then 1 else 0

theorem Swept.start {c : Nat} (hc : c < s.pids.length)
    (hcounter : s.subProcessCounter = (c + 1) % s.pids.length) : Swept c s s 0 where
  size := rfl
  le := Nat.zero_lt_of_lt hc
  counter := hcounter
  log := run_notified [] s
  counts := by
    intro m _ _
    have hnil : since s s = [] := List.drop_length
    rw [hnil]
    rfl

/-- The search from behind the children passed, while `c` itself is alive: it ends at the first of
the others that is alive, or at `c` if none is left. -/
theorem Swept.found {c q : Nat} (h : Swept c s s' q) (hc : c < s.pids.length)
    (hlive : s'.alive c = true) : ∃ m, q ≤ m ∧ m < s.pids.length ∧
      s'.found = (c + 1 + m) % s.pids.length ∧
      ∀ m', q ≤ m' → m' < m → s'.alive ((c + 1 + m') % s.pids.length) = false := by
  have hn : 0 < s.pids.length := Nat.zero_lt_of_lt hc
  have hround : ∀ m, (s'.subProcessCounter + m) % s.pids.length =
      (c + 1 + (q + m)) % s.pids.length := by
    intro m
    rw [h.counter, Nat.mod_add_mod, Nat.add_assoc (c + 1)]
  have hself := last_round hc
  have hlast := hround (s.pids.length - 1 - q)
  rw [show q + (s.pids.length - 1 - q) = s.pids.length - 1 by have := h.le; omega, hself] at hlast
  have hlt : s'.subProcessCounter < s.pids.length := h.counter ▸ Nat.mod_lt _ hn
  obtain ⟨k, hk, hfound, _, hdead⟩ := search_first hlt
    ⟨s.pids.length - 1 - q, by have := h.le; omega, hlast ▸ hlive⟩
  have hkq : k ≤ s.pids.length - 1 - q := by
    by_contra hgt
    have hcdead := hdead (s.pids.length - 1 - q) (by omega)
    rw [hlast, hlive] at hcdead
    cases hcdead
  refine ⟨q + k, Nat.le_add_right q k, by have := h.le; omega, ?_, fun m' hq hm => ?_⟩
  · rw [State.found, h.size, hfound, hround]
  · have hd := hdead (m' - q) (by omega)
    rw [hround, show q + (m' - q) = m' by omega] at hd
    exact hd

theorem Swept.silent {c q : Nat} (h : Swept c s s' q) (hs : Silent s' s'') :
    Swept c s s'' q := by
  have hlog : notified s''.log = notified s'.log ++ [] := by rw [hs.log, List.append_nil]
  have hsince : since s s'' = since s s' := by
    rw [since_trans h.log hlog, hs.since, List.append_nil]
  exact
    { size := hs.size.trans h.size
      le := h.le
      counter := hs.counter.trans h.counter
      log := by rw [hsince, hs.log, h.log]
      counts := fun m hm hlive => by rw [hsince, h.counts m hm (hs.dies _ hlive)] }

/-- Another child is told: the ones skipped are dead, so that all that are alive up to it have been
told once. -/
theorem Swept.told {c q : Nat} (h : Swept c s s' q) (hc : c < s.pids.length)
    (hlive : s'.alive c = true) (ht : Told s' s'') (hne : s'.found ≠ c) :
    ∃ q', Swept c s s'' q' := by
  obtain ⟨m, hqm, hm, hfound, hdead⟩ := h.found hc hlive
  have hself := last_round hc
  have hmlast : m ≠ s.pids.length - 1 := fun he => hne (by rw [hfound, he, hself])
  have hsince : since s s'' = since s s' ++ [s'.found] := by
    rw [since_trans h.log ht.log, ht.since]
  refine ⟨m + 1, ?_⟩
  exact
    { size := (congrArg List.length ht.pids).trans h.size
      le := by omega
      counter := by rw [ht.counter, h.size, hfound, next_mod]
      log := by rw [hsince, ht.log, h.log, List.append_assoc]
      counts := by
        intro m' hm' hlive'
        have hlive' : s'.alive ((c + 1 + m') % s.pids.length) = true := by
          rwa [State.alive, ht.pids] at hlive'
        have hcount := h.counts m' hm' hlive'
        rw [hsince, List.count_append, hcount, List.count_singleton, hfound]
        rcases Nat.lt_trichotomy m' m with hlt | rfl | hgt
        · -- below the child told: passed before, or dead
          have hq : m' < q := by
            by_contra hq
            have hd := hdead m' (by omega) hlt
            rw [hlive'] at hd
            cases hd
          have hother : ((c + 1 + m) % s.pids.length == (c + 1 + m') % s.pids.length) = false := by
            rw [beq_eq_false_iff_ne]
            intro he
            have := round_inj (c + 1) hm (by omega) he
            omega
          simp only [hother, hq, if_true, Bool.false_eq_true, if_false]
          rw [if_pos (by omega)]
        · rw [if_neg (by omega), beq_self_eq_true, if_pos rfl, if_pos (Nat.lt_succ_self m')]
        · have hother : ((c + 1 + m) % s.pids.length == (c + 1 + m') % s.pids.length) = false := by
            rw [beq_eq_false_iff_ne]
            intro he
            have := round_inj (c + 1) hm (by omega) he
            omega
          simp only [hother, Bool.false_eq_true, if_false]
          rw [if_neg (by omega), if_neg (by omega)] }

/-- The run from one notification to `c` on, by induction on its steps. -/
theorem Swept.run {c q : Nat} (h : Swept c s s' q) (hc : c < s.pids.length) (es : List Step)
    (hlive : (machine.run s' es).alive c = true) (hnot : c ∉ since s' (machine.run s' es)) :
    ∃ q', Swept c s (machine.run s' es) q' := by
  induction es generalizing s' q with
  | nil => exact ⟨q, h⟩
  | cons e es ih =>
    have hlive' : s'.alive c = true := run_dies (e :: es) s' c hlive
    rw [Machine.run_cons] at hlive hnot ⊢
    rw [since_trans (step_notified s' e) (run_notified es _)] at hnot
    have hstep : c ∉ since s' (machine.step s' e) := fun h => hnot (List.mem_append_left _ h)
    have hrest := fun h => hnot (List.mem_append_right _ h)
    rcases step_did s' e with hd | hd
    · have hne : s'.found ≠ c := by
        intro he
        rw [hd.since, he] at hstep
        exact hstep (List.mem_singleton_self c)
      obtain ⟨q', hq'⟩ := h.told hc hlive' hd hne
      exact ih hq' hlive hrest
    · exact ih (h.silent hd) hlive hrest

/-- When `c` is told again, all others that are alive have been passed. -/
theorem Swept.again {c q : Nat} (h : Swept c s s' q) (hc : c < s.pids.length)
    (hlive : s'.alive c = true) (hfound : s'.found = c) {j : Nat} (hj : j < s.pids.length)
    (hne : j ≠ c) (hjlive : s'.alive j = true) : (since s s').count j = 1 := by
  obtain ⟨m, hqm, hm, hfound', hdead⟩ := h.found hc hlive
  have hself := last_round hc
  have hmlast : m = s.pids.length - 1 :=
    round_inj (c + 1) hm (by omega) (hfound'.symm.trans (hfound.trans hself.symm))
  obtain ⟨m', hm', rfl⟩ := exists_round (Nat.succ_le_of_lt hc) hj
  have hmne : m' ≠ s.pids.length - 1 := fun he => hne (by rw [he, hself])
  rw [h.counts m' (by omega) hjlive, if_pos]
  by_contra hq
  have hd := hdead m' (by omega) (by omega)
  rw [hjlive] at hd
  cases hd

theorem tells_told {c : Nat} (h : s.tells c) : Told s (machine.step s .handle) ∧ s.found = c := by
  rcases step_did s .handle with hd | hd
  · exact ⟨hd, List.singleton_inj.mp (hd.since.symm.trans h)⟩
  · have hnil := hd.since.symm.trans h
    cases hnil

theorem run_fair (s : State) (es : List Step) : Fair s es := by
  intro xs ys zs c _ hfirst first hnot hsecond j hj hne halive
  obtain ⟨ht, hfound⟩ := tells_told hfirst
  obtain ⟨ht', hfound'⟩ := tells_told hsecond
  have hrun : first = machine.step (machine.run s xs) .handle := by
    rw [show first = machine.run s (xs ++ [.handle]) from rfl, Machine.run_append]
    rfl
  have hlen : first.pids.length = (machine.run s xs).pids.length := by
    rw [hrun, ht.pids]
  have hc : c < first.pids.length := by
    rw [hlen, ← hfound]
    exact alive_lt ht.found
  have hlive : (machine.run first ys).alive c = true := hfound' ▸ ht'.found
  have hstart : Swept c first first 0 := Swept.start hc (by
    rw [hlen, hrun, ht.counter, hfound])
  obtain ⟨q, hq⟩ := hstart.run hc ys hlive hnot
  exact hq.again hc hlive hfound' hj hne halive.last

/-- In every run a connection is told only to a child with a pid, the parent stops instead just when
all children are dead, and the children that stay alive are told in turn. -/
theorem dispatch_round_robin (pids : Pids) (es : List Step)
    (hv : machine.Valid (start pids) es) :
    machine.Each Dispatches (start pids) es ∧ Fair (start pids) es :=
  ⟨Machine.each_inv (fun _ e h _ => step_inv h e) (fun _ e h _ => step_dispatches h e)
    (start_inv pids) hv, run_fair (start pids) es⟩

def threePids : Pids := ⟨[101, 102, 103], by decide⟩

/-- Child 1 dies after the first connection; two more connections go to 2 and 0. -/
def oneDies : List Step :=
  [.wait (some [.listen]), .handle, .wait (some [.signals [.sigchld [102]], .listen]), .handle,
    .handle, .wait (some [.listen]), .handle]

theorem dispatch_round_robin_oneDies :
    machine.Each Dispatches (start threePids) oneDies ∧ Fair (start threePids) oneDies :=
  dispatch_round_robin threePids oneDies (by decide)

example : notified (machine.run (start threePids) oneDies).log = [0, 2, 0] := by decide

end

end RunParent
end Unpvol1
