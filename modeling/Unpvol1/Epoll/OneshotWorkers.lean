import Mathlib.Data.List.Nodup
import Unpvol1.Lib.Machine
import Unpvol1.Lib.Threads

/-!
# Epoll.OneshotWorkers

The server of `9/9-4oneshot.cpp`. Connections are registered with `EPOLLONESHOT`; for each event
`main` starts a thread that reads the connection until `EAGAIN` and then registers it again. What a
thread gets is the address of a variable of `main` that holds the descriptor, and ends with the
block `main` starts the thread in.

* `owners`      — how often a descriptor is armed, in `main`'s hands, or about to be read by a
  thread.
* `owned_once_iff` — every open descriptor keeps its one owner just when `main` never leaves the
  block before the thread has read its descriptor, and loses none of its own account.
-/

namespace Unpvol1
namespace OneshotWorkers

/-- An event of `epoll_wait`; of one for a connection the code tests `EPOLLIN`. -/
inductive Event where
  | listening
  | conn (fd : Nat) (epollin : Bool)
deriving DecidableEq

/-- Where `main` is: at the `for` loop; between the assignment to `fds_for_new_worker.sockfd` and
`pthread_create`; or behind that, at the end of the block. -/
inductive Main where
  | loop
  | stored
  | made
deriving DecidableEq

/-- Where a thread is: in its first two lines, which read what it was given, or in its loop. -/
inductive Worker where
  | created
  | running (sockfd : Nat)
  | ended
deriving DecidableEq

/-- `fds` are the open connections, `armed` those whose events are reported, and `batch` is what the
`for` loop has still to come to. `cell` is `fds_for_new_worker.sockfd` while `main` is in its block;
the variable is in the same place in every turn. -/
structure State where
  main : Main
  batch : List Event
  cell : Option Nat
  workers : List Worker
  fds : List Nat
  armed : List Nat
deriving DecidableEq

inductive Step where
  | wait (events : List Event)
  /-- `accept`, and `epoll_ctl` on what it returned. -/
  | accept (connfd : Option Nat) (added : Bool)
  | store
  /-- An event of a connection that is not `EPOLLIN`. -/
  | skip
  | create (success : Bool)
  /-- `main` leaves the block of `fds_for_new_worker`. -/
  | leave
  /-- The first two lines of thread `i`. Without the variable `junk` is what it finds. -/
  | read (i junk : Nat)
  /-- `recv` returns some bytes, or an error that is not tested. -/
  | recv (i : Nat)
  | again (i : Nat)
  | eof (i : Nat)
deriving DecidableEq

def Event.fds : Event → List Nat
  | .listening => []
  | .conn fd _ => [fd]

/-- `EPOLL_CTL_MOD`, which fails on a descriptor that is not open. -/
def resetOneshot (fd : Nat) (s : State) : State :=
  if fd ∈ s.fds ∧ fd ∉ s.armed then { s with armed := fd :: s.armed } else s

/-- `close`, which ends the registration too. -/
def close (fd : Nat) (s : State) : State :=
  { s with fds := s.fds.erase fd, armed := s.armed.filter (· ≠ fd) }

def move (i : Nat) (w : Worker) (s : State) : State := { s with workers := s.workers.set i w }

def accept (connfd : Option Nat) (added : Bool) (s : State) : State :=
  match connfd with
  | none => s
  | some fd => { s with fds := fd :: s.fds, armed := if added then fd :: s.armed else s.armed }

def step (s : State) : Step → State
  | .wait events => { s with
      batch := events
      armed := s.armed.filter (· ∉ events.flatMap Event.fds) }
  | .accept connfd added => accept connfd added { s with batch := s.batch.tail }
  | .store =>
    match s.batch with
    | .conn fd _ :: batch => { s with main := .stored, batch := batch, cell := some fd }
    | _ => s
  | .skip => { s with batch := s.batch.tail }
  | .create success => { s with
      main := .made
      workers := if success then s.workers ++ [.created] else s.workers }
  | .leave => { s with main := .loop, cell := none }
  | .read i junk => move i (.running (s.cell.getD junk)) s
  | .recv _ => s
  | .again i =>
    match s.workers[i]? with
    | some (.running fd) => resetOneshot fd (move i .ended s)
    | _ => s
  | .eof i =>
    match s.workers[i]? with
    | some (.running fd) => close fd (move i .ended s)
    | _ => s

def Worker.isRunning : Worker → Bool
  | .running _ => true
  | _ => false

/-- The event the `for` loop comes to next is for the listening socket, or of a connection with this
`EPOLLIN`. -/
def State.atListening (s : State) : Bool := s.main = .loop && s.batch.head? = some .listening

def State.atConn (s : State) (epollin : Bool) : Bool :=
  match s.main, s.batch with
  | .loop, .conn _ b :: _ => b = epollin
  | _, _ => false

/-- `epoll_wait` reports descriptors that are armed, each once, and `accept` returns one that is not
open. -/
def ok (s : State) : Step → Prop
  | .wait events => s.main = .loop ∧ s.batch = [] ∧ (events.flatMap Event.fds).Nodup ∧
      ∀ fd ∈ events.flatMap Event.fds, fd ∈ s.armed
  | .accept connfd _ => s.atListening = true ∧ ∀ fd ∈ connfd, fd ∉ s.fds
  | .store => s.atConn true = true
  | .skip => s.atConn false = true
  | .create _ => s.main = .stored
  | .leave => s.main = .made
  | .read i _ => s.workers[i]? = some .created
  | .recv i => (s.workers[i]?).any Worker.isRunning = true
  | .again i => (s.workers[i]?).any Worker.isRunning = true
  | .eof i => (s.workers[i]?).any Worker.isRunning = true

instance (s : State) : (e : Step) → Decidable (ok s e)
  | .wait events => inferInstanceAs (Decidable (s.main = .loop ∧ s.batch = [] ∧
      (events.flatMap Event.fds).Nodup ∧ ∀ fd ∈ events.flatMap Event.fds, fd ∈ s.armed))
  | .accept connfd _ => inferInstanceAs (Decidable (s.atListening = true ∧
      ∀ fd ∈ connfd, fd ∉ s.fds))
  | .store => inferInstanceAs (Decidable (s.atConn true = true))
  | .skip => inferInstanceAs (Decidable (s.atConn false = true))
  | .create _ => inferInstanceAs (Decidable (s.main = .stored))
  | .leave => inferInstanceAs (Decidable (s.main = .made))
  | .read i _ => inferInstanceAs (Decidable (s.workers[i]? = some .created))
  | .recv i => inferInstanceAs (Decidable ((s.workers[i]?).any Worker.isRunning = true))
  | .again i => inferInstanceAs (Decidable ((s.workers[i]?).any Worker.isRunning = true))
  | .eof i => inferInstanceAs (Decidable ((s.workers[i]?).any Worker.isRunning = true))

def machine : Machine State Step := ⟨step, ok⟩

instance (s : State) (e : Step) : Decidable (machine.ok s e) :=
  inferInstanceAs (Decidable (ok s e))

def start : State where
  main := .loop
  batch := []
  cell := none
  workers := []
  fds := []
  armed := []

/-! ## Owners -/

def State.held (s : State) : List Nat :=
  match s.main with
  | .stored => s.cell.toList
  | .loop | .made => []

/-- What a thread reads, or will read when it has found out; nothing can be said of it once the
variable is gone. -/
def Worker.target (cell : Option Nat) : Worker → List Nat
  | .created => cell.toList
  | .running fd => [fd]
  | .ended => []

def targets (cell : Option Nat) (ws : List Worker) (fd : Nat) : Nat :=
  (ws.map fun w => (w.target cell).count fd).sum

def owners (s : State) (fd : Nat) : Nat :=
  s.armed.count fd + (s.batch.flatMap Event.fds).count fd + s.held.count fd +
    targets s.cell s.workers fd

/-- An open descriptor has one owner, and no other has any. -/
def Owned (s : State) : Prop := ∀ fd, owners s fd = s.fds.count fd

/-- The thread has read its descriptor before `main` leaves the block; no event is passed over, and
`epoll_ctl` and `pthread_create` do not fail. -/
def Careful (s : State) : Step → Prop
  | .accept connfd added => connfd ≠ none → added = true
  | .skip => False
  | .create success => success = true
  | .leave => .created ∉ s.workers
  | _ => True

/-- As long as `main` was careful, only the thread of this turn has still to read its descriptor. -/
structure Inv (s : State) : Prop where
  nodup : s.fds.Nodup
  inside : s.main ≠ .loop → s.cell ≠ none
  created : .created ∈ s.workers → s.main = .made

section
variable {s : State} {cell : Option Nat} {ws : List Worker} {i fd : Nat}

theorem targets_append (ws ws' : List Worker) :
    targets cell (ws ++ ws') fd = targets cell ws fd + targets cell ws' fd := by
  simp only [targets, List.map_append, List.sum_append]

theorem targets_move (cell : Option Nat) (fd : Nat) {w : Worker} (h : ws[i]? = some w)
    (w' : Worker) :
    targets cell (ws.set i w') fd + (w.target cell).count fd =
      targets cell ws fd + (w'.target cell).count fd :=
  Threads.sum_move (fun w => (w.target cell).count fd) h w'

/-- Those who have not read the cell yet, and the others. -/
theorem targets_eq (cell : Option Nat) (ws : List Worker) (fd : Nat) :
    targets cell ws fd = ws.count .created * cell.toList.count fd + targets none ws fd := by
  induction ws with
  | nil => simp [targets]
  | cons w ws ih =>
    have hcons : ∀ c, targets c (w :: ws) fd = (w.target c).count fd + targets c ws fd :=
      fun c => rfl
    rw [hcons, hcons, ih]
    cases w with
    | created =>
      rw [List.count_cons_self, Nat.add_mul]
      show cell.toList.count fd + _ = _ + 1 * _ + (0 + _)
      omega
    | running sockfd =>
      rw [List.count_cons_of_ne (by simp)]
      show [sockfd].count fd + _ = _ + ([sockfd].count fd + _)
      omega
    | ended =>
      rw [List.count_cons_of_ne (by simp)]
      show 0 + _ = _ + (0 + _)
      omega

theorem count_one (fd k : Nat) : [fd].count k = if k = fd then 1 else 0 := by
  by_cases h : k = fd
  · rw [if_pos h, h, List.count_singleton_self]
  · rw [if_neg h, List.count_eq_zero]
    exact fun hk => h (List.mem_singleton.mp hk)

theorem Inv.count_le (h : Inv s) (fd : Nat) : s.fds.count fd ≤ 1 :=
  List.nodup_iff_count_le_one.mp h.nodup fd

/-- What the owners are when a thread is done with its descriptor. -/
theorem targets_ended (cell : Option Nat) {k : Nat} (h : ws[i]? = some (.running k)) (fd : Nat) :
    targets cell (ws.set i .ended) fd + (if fd = k then 1 else 0) = targets cell ws fd := by
  have hmove := targets_move cell fd h .ended
  have hended : (Worker.target cell .ended).count fd = 0 := rfl
  have hself : (Worker.target cell (.running k)).count fd = if fd = k then 1 else 0 :=
    count_one k fd
  rw [hself, hended, Nat.add_zero] at hmove
  exact hmove

/-- What a thread runs on is open, and nobody else's. -/
theorem Owned.running (ho : Owned s) (h : Inv s) (hi : s.workers[i]? = some (.running fd)) :
    fd ∈ s.fds ∧ fd ∉ s.armed := by
  have hended := targets_ended s.cell hi fd
  have hown := ho fd
  have hle := h.count_le fd
  rw [if_pos rfl] at hended
  unfold owners at hown
  constructor
  · exact List.count_pos_iff.mp (by omega)
  · exact List.count_eq_zero.mp (by omega)

/-! ## What a step does -/

theorem atConn_eq {b : Bool} (h : s.atConn b = true) :
    ∃ fd batch, s.main = .loop ∧ s.batch = .conn fd b :: batch := by
  unfold State.atConn at h
  split at h
  · rename_i fd b' batch hmain hbatch
    obtain rfl : b' = b := of_decide_eq_true h
    exact ⟨fd, batch, hmain, hbatch⟩
  · cases h

theorem atListening_eq (h : s.atListening = true) :
    ∃ batch, s.main = .loop ∧ s.batch = .listening :: batch := by
  simp only [State.atListening, Bool.and_eq_true, decide_eq_true_eq] at h
  obtain ⟨hmain, hhead⟩ := h
  cases hb : s.batch with
  | nil =>
    rw [hb] at hhead
    cases hhead
  | cons e batch =>
    rw [hb] at hhead
    obtain rfl : e = .listening := Option.some.inj hhead
    exact ⟨batch, hmain, rfl⟩

theorem running_of (h : (s.workers[i]?).any Worker.isRunning = true) :
    ∃ fd, s.workers[i]? = some (.running fd) := by
  cases hw : s.workers[i]? with
  | none =>
    rw [hw] at h
    cases h
  | some w =>
    rw [hw] at h
    cases w with
    | running fd => exact ⟨fd, rfl⟩
    | created => cases h
    | ended => cases h

/-! ## Each step -/

/-- A step that leaves the owners, and is careful. -/
theorem exact_of_owned {s' : State} {e : Step} (ho : Owned s') (hc : Careful s e) :
    Owned s' ↔ Careful s e := ⟨fun _ => hc, fun _ => ho⟩

theorem wait_owned {events : List Event} (ho : Owned s) (h : Inv s)
    (hok : ok s (.wait events)) : Owned (step s (.wait events)) := by
  obtain ⟨hmain, hbatch, hnodup, harmed⟩ := hok
  intro fd
  have hown := ho fd
  have hle := h.count_le fd
  have hheld : (step s (.wait events)).held = s.held := rfl
  unfold owners at hown ⊢
  rw [hheld]
  rw [hbatch, List.flatMap_nil, List.count_nil] at hown
  show (s.armed.filter (· ∉ events.flatMap Event.fds)).count fd +
    (events.flatMap Event.fds).count fd + s.held.count fd + targets s.cell s.workers fd = _
  have hmoved : (s.armed.filter (· ∉ events.flatMap Event.fds)).count fd +
      (events.flatMap Event.fds).count fd = s.armed.count fd := by
    by_cases hin : fd ∈ events.flatMap Event.fds
    · have hone : s.armed.count fd = 1 := by
        have hpos := List.count_pos_iff.mpr (harmed fd hin)
        omega
      have hnone : (s.armed.filter (· ∉ events.flatMap Event.fds)).count fd = 0 := by
        refine List.count_eq_zero.mpr fun hmem => ?_
        have hnot := (List.mem_filter.mp hmem).2
        exact of_decide_eq_true hnot hin
      have hev : (events.flatMap Event.fds).count fd = 1 := by
        have hpos := List.count_pos_iff.mpr hin
        have hle := List.nodup_iff_count_le_one.mp hnodup fd
        omega
      omega
    · rw [List.count_eq_zero.mpr hin, List.count_filter (by simpa using hin)]
      rfl
  rw [hmoved]
  exact hown

theorem accept_exact {connfd : Option Nat} {added : Bool} (ho : Owned s)
    (hok : ok s (.accept connfd added)) :
    Owned (step s (.accept connfd added)) ↔ Careful s (.accept connfd added) := by
  obtain ⟨hlisten, hnew⟩ := hok
  obtain ⟨batch, hmain, hbatch⟩ := atListening_eq hlisten
  have htail : (s.batch.tail.flatMap Event.fds) = s.batch.flatMap Event.fds := by
    rw [hbatch]
    rfl
  cases connfd with
  | none =>
    refine exact_of_owned (fun fd => ?_) fun hne => absurd rfl hne
    have hown := ho fd
    unfold owners at hown ⊢
    rw [← htail] at hown
    exact hown
  | some c =>
    have hzero : s.fds.count c = 0 := List.count_eq_zero.mpr (hnew c rfl)
    cases added with
    | true =>
      refine exact_of_owned (fun fd => ?_) fun _ => rfl
      have hown := ho fd
      unfold owners at hown ⊢
      rw [← htail] at hown
      show (c :: s.armed).count fd + (s.batch.tail.flatMap Event.fds).count fd +
        s.held.count fd + targets s.cell s.workers fd = (c :: s.fds).count fd
      rw [List.count_cons, List.count_cons]
      omega
    | false =>
      refine ⟨fun hbad => ?_, fun hc => absurd (hc (by simp)) Bool.false_ne_true⟩
      exfalso
      have hown := ho c
      have hbad := hbad c
      unfold owners at hown hbad
      rw [← htail] at hown
      have hbad : s.armed.count c + (s.batch.tail.flatMap Event.fds).count c + s.held.count c +
        targets s.cell s.workers c = (c :: s.fds).count c := hbad
      rw [List.count_cons_self] at hbad
      omega

/-- No thread has still to read, so the descriptor is `main`'s alone. -/
theorem store_owned (ho : Owned s) (h : Inv s) (hok : ok s .store) : Owned (step s .store) := by
  obtain ⟨k, batch, hmain, hbatch⟩ := atConn_eq hok
  have hzero : s.workers.count .created = 0 := by
    refine List.count_eq_zero.mpr fun hm => ?_
    have hmade := h.created hm
    rw [hmain] at hmade
    cases hmade
  have hheld : s.held = [] := by
    unfold State.held
    rw [hmain]
  have hstep : step s .store = { s with main := .stored, batch := batch, cell := some k } := by
    simp only [step, hbatch]
  have hbefore : ∀ fd, s.armed.count fd + ([k].count fd + (batch.flatMap Event.fds).count fd) +
      (0 * s.cell.toList.count fd + targets none s.workers fd) = s.fds.count fd := by
    intro fd
    have hown := ho fd
    unfold owners at hown
    rw [hheld, hbatch, targets_eq, hzero, List.flatMap_cons, List.count_append] at hown
    exact hown
  rw [hstep]
  intro fd
  have hb := hbefore fd
  show s.armed.count fd + (batch.flatMap Event.fds).count fd + [k].count fd +
    targets (some k) s.workers fd = s.fds.count fd
  rw [targets_eq, hzero]
  omega

/-- A thread that has not read its descriptor will not find it any more. -/
theorem leave_exact (ho : Owned s) (h : Inv s) (hok : ok s .leave) :
    Owned (step s .leave) ↔ Careful s .leave := by
  have hmain : s.main = .made := hok
  obtain ⟨c, hc⟩ := Option.ne_none_iff_exists'.mp (h.inside (by simp [hmain]))
  have hheld : s.held = [] := by
    unfold State.held
    rw [hmain]
  have hbefore : ∀ fd, s.armed.count fd + (s.batch.flatMap Event.fds).count fd +
      (s.workers.count .created * [c].count fd + targets none s.workers fd) = s.fds.count fd := by
    intro fd
    have hown := ho fd
    unfold owners at hown
    rw [hheld, targets_eq, hc] at hown
    exact hown
  have hafter : ∀ fd, owners (step s .leave) fd = s.armed.count fd +
      (s.batch.flatMap Event.fds).count fd + targets none s.workers fd := fun fd => rfl
  constructor
  · intro hbad hcreated
    have hpos := List.count_pos_iff.mpr hcreated
    have hb := hbefore c
    have ha : _ = s.fds.count c := hbad c
    rw [hafter] at ha
    rw [List.count_singleton_self, Nat.mul_one] at hb
    omega
  · intro hcreated fd
    have hzero : s.workers.count .created = 0 := List.count_eq_zero.mpr hcreated
    have hb := hbefore fd
    show _ = s.fds.count fd
    rw [hafter]
    rw [hzero] at hb
    omega

theorem skip_exact (ho : Owned s) (hok : ok s .skip) :
    Owned (step s .skip) ↔ Careful s .skip := by
  obtain ⟨k, batch, hmain, hbatch⟩ := atConn_eq hok
  refine ⟨fun hbad => ?_, fun hc => hc.elim⟩
  have hown := ho k
  have hbad := hbad k
  unfold owners at hown hbad
  rw [hbatch, List.flatMap_cons, List.count_append] at hown
  have hself : (Event.conn k false).fds.count k = 1 := by
    show [k].count k = 1
    rw [count_one, if_pos rfl]
  have htail : s.batch.tail = batch := by
    rw [hbatch]
    rfl
  have hbad : s.armed.count k + (s.batch.tail.flatMap Event.fds).count k + s.held.count k +
    targets s.cell s.workers k = s.fds.count k := hbad
  rw [htail] at hbad
  omega

theorem create_exact {success : Bool} (ho : Owned s) (h : Inv s) (hok : ok s (.create success)) :
    Owned (step s (.create success)) ↔ Careful s (.create success) := by
  have hmain : s.main = .stored := hok
  have hheld : s.held = s.cell.toList := by
    unfold State.held
    rw [hmain]
  cases success with
  | true =>
    refine exact_of_owned (fun fd => ?_) rfl
    have hown := ho fd
    unfold owners at hown ⊢
    rw [hheld] at hown
    show s.armed.count fd + (s.batch.flatMap Event.fds).count fd + 0 +
      targets s.cell (s.workers ++ [.created]) fd = s.fds.count fd
    rw [targets_append]
    have hnew : targets s.cell [.created] fd = s.cell.toList.count fd := Nat.add_zero _
    omega
  | false =>
    refine ⟨fun hbad => ?_, fun hc => by cases hc⟩
    obtain ⟨c, hc⟩ := Option.ne_none_iff_exists'.mp (h.inside (by simp [hmain]))
    have hown := ho c
    have hbad := hbad c
    unfold owners at hown hbad
    have hself : s.cell.toList.count c = 1 := by
      rw [hc]
      show [c].count c = 1
      rw [count_one, if_pos rfl]
    rw [hheld, hself] at hown
    have hbad : s.armed.count c + (s.batch.flatMap Event.fds).count c + 0 +
      targets s.cell s.workers c = s.fds.count c := hbad
    omega

theorem read_owned {i junk : Nat} (ho : Owned s) (h : Inv s) (hok : ok s (.read i junk)) :
    Owned (step s (.read i junk)) := by
  have hi : s.workers[i]? = some .created := hok
  have hmain : s.main = .made := h.created (List.mem_of_getElem? hi)
  obtain ⟨c, hc⟩ := Option.ne_none_iff_exists'.mp (h.inside (by simp [hmain]))
  have hstep : step s (.read i junk) = move i (.running c) s := by
    simp only [step, hc, Option.getD_some]
  rw [hstep]
  intro fd
  have hmove := targets_move s.cell fd hi (.running c)
  have hsame : (Worker.target s.cell (.running c)).count fd =
      (Worker.target s.cell .created).count fd := by
    rw [hc]
    rfl
  have hown := ho fd
  unfold owners at hown ⊢
  show s.armed.count fd + (s.batch.flatMap Event.fds).count fd + s.held.count fd +
    targets s.cell (s.workers.set i (.running c)) fd = s.fds.count fd
  omega

/-- The thread hands its descriptor back to epoll. -/
theorem again_owned {i : Nat} (ho : Owned s) (h : Inv s) (hok : ok s (.again i)) :
    Owned (step s (.again i)) := by
  obtain ⟨k, hi⟩ := running_of hok
  obtain ⟨hopen, harmed⟩ := ho.running h hi
  have hstep : step s (.again i) =
      { s with workers := s.workers.set i .ended, armed := k :: s.armed } := by
    simp only [step, hi]
    exact if_pos ⟨hopen, harmed⟩
  rw [hstep]
  intro fd
  have hended := targets_ended s.cell hi fd
  have hown := ho fd
  unfold owners at hown ⊢
  show (k :: s.armed).count fd + (s.batch.flatMap Event.fds).count fd + s.held.count fd +
    targets s.cell (s.workers.set i .ended) fd = s.fds.count fd
  rw [List.count_cons]
  have hif : (if (k == fd) = true then 1 else 0) = if fd = k then 1 else 0 := by
    by_cases hk : fd = k
    · rw [if_pos hk, if_pos (beq_iff_eq.mpr hk.symm)]
    · rw [if_neg hk, if_neg fun hb => hk (beq_iff_eq.mp hb).symm]
  rw [hif]
  omega

/-- It closes what nobody else has. -/
theorem eof_owned {i : Nat} (ho : Owned s) (h : Inv s) (hok : ok s (.eof i)) :
    Owned (step s (.eof i)) := by
  obtain ⟨k, hi⟩ := running_of hok
  obtain ⟨hopen, harmed⟩ := ho.running h hi
  have hstep : step s (.eof i) = { s with
      workers := s.workers.set i .ended, fds := s.fds.erase k
      armed := s.armed.filter (· ≠ k) } := by
    simp only [step, hi]
    rfl
  rw [hstep]
  intro fd
  have hended := targets_ended s.cell hi fd
  have hown := ho fd
  unfold owners at hown ⊢
  show (s.armed.filter (· ≠ k)).count fd + (s.batch.flatMap Event.fds).count fd +
    s.held.count fd + targets s.cell (s.workers.set i .ended) fd = (s.fds.erase k).count fd
  have hkept : s.armed.filter (· ≠ k) = s.armed :=
    List.filter_eq_self.mpr fun x hx => by
      simp only [decide_eq_true_eq]
      rintro rfl
      exact harmed hx
  rw [hkept]
  by_cases hk : fd = k
  · rw [hk] at hown hended ⊢
    rw [List.count_erase_self]
    rw [if_pos rfl] at hended
    omega
  · rw [List.count_erase_of_ne (by simpa using hk)]
    rw [if_neg hk] at hended
    omega

theorem step_exact {e : Step} (h : Inv s) (hok : machine.ok s e) (ho : Owned s) :
    Owned (machine.step s e) ↔ Careful s e := by
  cases e with
  | wait events => exact exact_of_owned (wait_owned ho h hok) trivial
  | accept connfd added => exact accept_exact ho hok
  | store => exact exact_of_owned (store_owned ho h hok) trivial
  | skip => exact skip_exact ho hok
  | create success => exact create_exact ho h hok
  | leave => exact leave_exact ho h hok
  | read i junk => exact exact_of_owned (read_owned ho h hok) trivial
  | recv i => exact exact_of_owned ho trivial
  | again i => exact exact_of_owned (again_owned ho h hok) trivial
  | eof i => exact exact_of_owned (eof_owned ho h hok) trivial

/-! ## Runs -/

theorem Inv.moved {w : Worker} (h : Inv s) (hw : w ≠ .created) :
    Inv { s with workers := s.workers.set i w } where
  nodup := h.nodup
  inside := h.inside
  created := fun hm => h.created (Threads.mem_of_mem_set hw hm)

theorem Inv.close {k : Nat} (h : Inv s) : Inv (close k s) where
  nodup := h.nodup.erase k
  inside := h.inside
  created := h.created

theorem resetOneshot_inv {k : Nat} (h : Inv s) : Inv (resetOneshot k s) := by
  unfold resetOneshot
  split
  · exact ⟨h.nodup, h.inside, h.created⟩
  · exact h

theorem step_inv {e : Step} (h : Inv s) (hok : machine.ok s e) (hc : Careful s e) :
    Inv (machine.step s e) := by
  show Inv (step s e)
  cases e with
  | wait events => exact ⟨h.nodup, h.inside, h.created⟩
  | accept connfd added =>
    cases connfd with
    | none => exact ⟨h.nodup, h.inside, h.created⟩
    | some fd => exact ⟨List.nodup_cons.mpr ⟨hok.2 fd rfl, h.nodup⟩, h.inside, h.created⟩
  | store =>
    obtain ⟨k, batch, hmain, hbatch⟩ := atConn_eq hok
    simp only [step, hbatch]
    refine ⟨h.nodup, fun _ => by simp, fun hm => ?_⟩
    have hmade := h.created hm
    rw [hmain] at hmade
    cases hmade
  | skip => exact ⟨h.nodup, h.inside, h.created⟩
  | create success =>
    have hmain : s.main = .stored := hok
    exact ⟨h.nodup, fun _ => h.inside (by simp [hmain]), fun _ => rfl⟩
  | leave => exact ⟨h.nodup, fun hne => absurd rfl hne, fun hm => absurd hm hc⟩
  | read i junk => exact h.moved (by simp)
  | recv i => exact h
  | again i =>
    obtain ⟨k, hi⟩ := running_of hok
    simp only [step, hi]
    exact resetOneshot_inv (h.moved (by simp))
  | eof i =>
    obtain ⟨k, hi⟩ := running_of hok
    simp only [step, hi]
    exact Inv.close (h.moved (by simp))

theorem start_owned : Owned start := fun _ => rfl

theorem start_inv : Inv start where
  nodup := List.nodup_nil
  inside := fun hne => absurd rfl hne
  created := fun h => by cases h

end

/-- In every interleaving of `main` and the threads: each open descriptor keeps its one owner, be it
epoll, `main` or one thread, just when every step is careful; the first that is not leaves a
descriptor with none. -/
theorem owned_once_iff (es : List Step) (hv : machine.Valid start es) :
    machine.Always Owned start es ↔ machine.Each Careful start es :=
  Machine.always_iff_each_of (M := machine) (I := Inv)
    (fun _ _ h hok ho => step_exact h hok ho)
    (fun _ _ h hok ho ho' => step_inv h hok ((step_exact h hok ho).mp ho')) start_inv start_owned hv

/-- Two connections are reported together, and `main` goes on to the second before the first thread
has read its own. Both threads read connection 6, and nobody connection 5. -/
def twoAtOnce : List Step :=
  [.wait [.listening], .accept (some 5) true, .wait [.listening], .accept (some 6) true,
    .wait [.conn 5 true, .conn 6 true], .store, .create true, .leave, .store, .create true,
    .read 0 0, .read 1 0, .leave, .recv 0, .again 1]

theorem owned_once_iff_twoAtOnce :
    machine.Always Owned start twoAtOnce ↔ machine.Each Careful start twoAtOnce :=
  owned_once_iff twoAtOnce (by decide)

end OneshotWorkers
end Unpvol1
