import Unpvol1.Lib.Socket
import Unpvol1.Timer.LstRuns

/-!
# Timer.NonactiveConn

The server that closes idle connections (`main` and its handlers), over the sorted timer list.

* `Server`      — `timer_lst`, `users`, the flags of `main`, and the open client connections.
* `handleEvent` — one event of a round, `timerHandler` — the end of a round after a SIGALRM.
* `machine`     — the event loop. The kernel's answers are inputs: which descriptors are ready,
  which descriptor an `accept` returns, what a `recv` returns, what the clock reads.
* `Idle`        — the invariant: `timer_lst` holds one timer for each open connection, due
  `3 * TIMESLOT` after the connection was last heard.
* `one_timer_each` — so every open connection has its one timer, and a tick closes exactly the
  connections that have been silent for `3 * TIMESLOT`.
-/

namespace Unpvol1
namespace NonactiveConn

open DList LstTimer

def fdLimit : Nat := 65535
def bufferSize : Nat := 64
def timeslot : Int := 5

/-- The functions a timer's `cb_func` may point to: there is one. -/
inductive Callback where
  | cbFunc

inductive Signal where
  | sigalrm
  | sigterm
  | other

/-- `client_data`. Its `timer` and `sockfd` hold anything before the slot is first used. -/
structure ClientData where
  sockfd : Nat
  timer : Ptr

structure Server where
  timerLst : SortTimerLst Callback Nat
  users : Nat → ClientData
  timeout : Bool
  stopServer : Bool
  opened : Nat → Bool

/-- `users[fd]`, an array of `FD_LIMIT` entries. -/
def user (s : Server) (fd : Nat) : Option ClientData :=
  if fd < fdLimit then some (s.users fd) else none

/-- `cb_func( &users[i] )`. Its `epoll_ctl` names the file's own `epollfd`, which `main` never
sets; closing the descriptor is what takes it out of the epoll instance. -/
def cbFunc (s : Server) (i : Nat) : Server :=
  { s with opened := Function.update s.opened (s.users i).sockfd false }

def call (s : Server) (x : Nat × UtilTimer Callback Nat) : Server :=
  match x.2.cbFunc with
  | .cbFunc => cbFunc s x.2.userData

def timerHandler (cur : Int) (s : Server) : Option Server := do
  let (lst, called) ← tick cur s.timerLst
  some (called.foldl call { s with timerLst := lst })

/-- A connection request: `accept` returns `connfd` and `new util_timer` returns `timer`. -/
def handleListen (s : Server) (connfd timer : Nat) (cur : Int) : Option Server := do
  let _ ← user s connfd
  let d : UtilTimer Callback Nat :=
    { expire := cur + 3 * timeslot, cbFunc := .cbFunc, userData := connfd }
  let lst := { s.timerLst with mem := s.timerLst.mem.alloc timer d }
  let lst ← addTimer lst (some timer)
  some { s with
    opened := Function.update s.opened connfd true
    users := Function.update s.users connfd { sockfd := connfd, timer := some timer }
    timerLst := lst }

def handleSignals (s : Server) (signals : List Signal) : Server :=
  signals.foldl (fun s sig =>
    match sig with
    | .sigalrm => { s with timeout := true }
    | .sigterm => { s with stopServer := true }
    | .other => s) s

/-- The connection is given up: `cb_func`, and `del_timer` when it has a timer. -/
def closeConn (s : Server) (sockfd : Nat) (timer : Ptr) : Option Server := do
  let s := cbFunc s sockfd
  if timer = none then
    some s
  else
    let lst ← delTimer s.timerLst timer
    some { s with timerLst := lst }

def handleClient (s : Server) (sockfd : Nat) (o : RecvOutcome) (cur : Int) : Option Server := do
  let u ← user s sockfd
  match recv (bufferSize - 1) o with
  | .err e => if e ≠ .again then closeConn s sockfd u.timer else some s
  | .got [] => closeConn s sockfd u.timer
  | .got (_ :: _) =>
    if u.timer = none then
      some s
    else
      let m ← s.timerLst.mem.setData u.timer ({ · with expire := cur + 3 * timeslot })
      let lst ← adjustTimer { s.timerLst with mem := m } u.timer
      some { s with timerLst := lst }

/-- What the kernel answers while one event is handled. -/
structure Answer where
  epollin : Bool
  connfd : Nat
  timer : Nat
  /-- The signals a `recv` on the pipe returns: none of them on an error or at its end. -/
  signals : List Signal
  recv : RecvOutcome
  cur : Int

section
variable (listenfd pipefd : Nat)

/-- One iteration of the loop over `events`. -/
def handleEvent (s : Server) (sockfd : Nat) (a : Answer) : Option Server :=
  if sockfd = listenfd then
    handleListen s a.connfd a.timer a.cur
  else if sockfd = pipefd ∧ a.epollin = true then
    some (handleSignals s a.signals)
  else if a.epollin = true then
    handleClient s sockfd a.recv a.cur
  else
    some s

/-! ## The event loop -/

inductive Input where
  /-- `epoll_wait` returns events for these descriptors. -/
  | wait (ready : List Nat)
  /-- The next event of the round. -/
  | event (a : Answer)
  /-- The end of the round: `if( timeout )`. -/
  | timeout (cur : Int)

/-- `round` is what is left of the events of the current round, `none` at `epoll_wait`. The last
two fields are about the past: the latest clock reading, and when each connection was accepted or
last brought data. -/
structure Run where
  server : Option Server
  round : Option (List Nat)
  clock : Int
  heard : Nat → Int

def broughtData (o : RecvOutcome) : Bool :=
  match recv (bufferSize - 1) o with
  | .got (_ :: _) => true
  | _ => false

def heardNow (r : Run) (sockfd : Nat) (a : Answer) : Nat → Int :=
  if sockfd = listenfd then
    Function.update r.heard a.connfd a.cur
  else if ¬ (sockfd = pipefd) ∧ a.epollin = true ∧ broughtData a.recv = true then
    Function.update r.heard sockfd a.cur
  else
    r.heard

def endRound (cur : Int) (s : Server) : Option Server :=
  if s.timeout = true then (timerHandler cur s).map ({ · with timeout := false }) else some s

def step (r : Run) : Input → Run
  | .wait ready => { r with round := some ready }
  | .event a =>
    match r.round with
    | some (sockfd :: rest) =>
      { server := r.server.bind fun s => handleEvent listenfd pipefd s sockfd a
        round := some rest
        clock := a.cur
        heard := heardNow listenfd pipefd r sockfd a }
    | _ => r
  | .timeout cur =>
    { r with server := r.server.bind (endRound cur), round := none, clock := cur }

def isOpen (r : Run) (fd : Nat) : Prop := ∃ s, r.server = some s ∧ s.opened fd = true

/-- The address `new` returns is not in use. -/
def Unallocated (r : Run) (timer : Nat) : Prop :=
  ∀ s, r.server = some s → s.timerLst.mem timer = none

/-- What the kernel keeps to: a round reports each descriptor once, and only open ones; `accept`
returns a descriptor in range that is not open; the clock does not go back. -/
def Allowed (r : Run) : Input → Prop
  | .wait ready =>
    r.round = none ∧ (∀ s, r.server = some s → s.stopServer = false) ∧ ready.Nodup ∧
      ∀ fd ∈ ready, fd = listenfd ∨ fd = pipefd ∨ isOpen r fd
  | .event a =>
    ∃ sockfd rest, r.round = some (sockfd :: rest) ∧ r.clock ≤ a.cur ∧
      (sockfd = listenfd → a.connfd < fdLimit ∧ ¬ isOpen r a.connfd ∧ Unallocated r a.timer)
  | .timeout cur => r.round = some [] ∧ r.clock ≤ cur

def machine : Machine Run Input where
  step := step listenfd pipefd
  ok := Allowed listenfd pipefd

def start (users : Nat → ClientData) (clock : Int) : Run where
  server := some
    { timerLst := LstTimer.init, users := users, timeout := false, stopServer := false
      opened := fun _ => false }
  round := none
  clock := clock
  heard := fun _ => clock

end

/-! ## One timer for each open connection -/

/-- The timer `x` of the list is that of an open connection. -/
structure Timed (s : Server) (clock : Int) (heard : Nat → Int)
    (x : Nat × UtilTimer Callback Nat) : Prop where
  opened : s.opened x.2.userData = true
  slot : s.users x.2.userData = { sockfd := x.2.userData, timer := some x.1 }
  range : x.2.userData < fdLimit
  due : x.2.expire = heard x.2.userData + 3 * timeslot
  past : heard x.2.userData ≤ clock

structure Idle (s : Server) (clock : Int) (heard : Nat → Int)
    (l : Timers Callback Nat) : Prop where
  repr : Repr s.timerLst l
  sorted : SortedBy dueAt l
  timed : ∀ x ∈ l, Timed s clock heard x
  covered : ∀ fd, s.opened fd = true → ∃ x ∈ l, x.2.userData = fd

theorem Timed.eq {s : Server} {clock : Int} {heard : Nat → Int} {x y : Nat × UtilTimer Callback Nat}
    (hx : Timed s clock heard x) (hy : Timed s clock heard y) (h : x.2.userData = y.2.userData) :
    x.1 = y.1 := by
  have hslot := hx.slot
  rw [h, hy.slot] at hslot
  simpa using hslot.symm

theorem Idle.later {s : Server} {clock cur : Int} {heard : Nat → Int} {l : Timers Callback Nat}
    (h : Idle s clock heard l) (hcur : clock ≤ cur) : Idle s cur heard l := by
  refine ⟨h.repr, h.sorted, ?_, h.covered⟩
  intro x hx
  exact { h.timed x hx with past := le_trans (h.timed x hx).past hcur }

/-- The timer of an open connection, where it stands in the list. -/
theorem Idle.find {s : Server} {clock : Int} {heard : Nat → Int} {l : Timers Callback Nat}
    (h : Idle s clock heard l) {fd : Nat} (hfd : s.opened fd = true) :
    ∃ l₁ l₂ t d, l = l₁ ++ (t, d) :: l₂ ∧ d.userData = fd ∧ fd < fdLimit ∧
      s.users fd = { sockfd := fd, timer := some t } ∧ d.expire = heard fd + 3 * timeslot ∧
      heard fd ≤ clock ∧ ∀ x ∈ l₁ ++ l₂, x.2.userData ≠ fd := by
  obtain ⟨⟨t, d⟩, hx, rfl⟩ := h.covered fd hfd
  have ht := h.timed _ hx
  obtain ⟨l₁, l₂, rfl⟩ := List.append_of_mem hx
  refine ⟨l₁, l₂, t, d, rfl, rfl, ht.range, ht.slot, ht.due, ht.past, ?_⟩
  intro y hy hyfd
  have hmem : y ∈ l₁ ++ (t, d) :: l₂ := by
    simp only [List.mem_append, List.mem_cons] at hy ⊢
    tauto
  have hkey : y.1 = t := (h.timed y hmem).eq ht hyfd
  exact (nodup_remove h.repr.nodup).2 (hkey ▸ (List.mem_map_of_mem hy : y.1 ∈ keys (l₁ ++ l₂)))

theorem handleListen_idle {s : Server} {clock cur : Int} {heard : Nat → Int}
    {l : Timers Callback Nat} {connfd timer : Nat} (h : Idle s clock heard l) (hcur : clock ≤ cur)
    (hrange : connfd < fdLimit) (hnew : s.opened connfd = false)
    (halloc : s.timerLst.mem timer = none) :
    ∃ s' l', handleListen s connfd timer cur = some s' ∧
      Idle s' cur (Function.update heard connfd cur) l' ∧
      ∀ fd, s.opened fd = true → s'.opened fd = true := by
  have hfresh : timer ∉ keys l := fun ht => h.repr.seg.live ht halloc
  obtain ⟨lst, e, hlst⟩ := exec_add h.repr
    (⟨cur + 3 * timeslot, .cbFunc, connfd⟩ : UtilTimer Callback Nat) hfresh
  have hmem := fun x => (perm_insertBy (f := dueAt) [] l
    (timer, (⟨cur + 3 * timeslot, .cbFunc, connfd⟩ : UtilTimer Callback Nat))).mem_iff (a := x)
  have hne : ∀ fd, s.opened fd = true → fd ≠ connfd := by
    intro fd hfd e
    simp [e, hnew] at hfd
  refine ⟨_, _, by simp [handleListen, user, hrange, show addTimer _ _ = some lst from e]; rfl,
    ⟨hlst, h.sorted.insert _, ?_, ?_⟩, ?_⟩
  · intro x hx
    cases (hmem x).mp hx with
    | head => exact ⟨by simp, by simp, hrange, by simp, by simp⟩
    | tail _ hx =>
      have ht := h.timed x hx
      have hx' := hne _ ht.opened
      exact ⟨by simp [hx', ht.opened], by simp [hx', ht.slot], ht.range, by simp [hx', ht.due],
        by simpa [hx'] using le_trans ht.past hcur⟩
  · intro fd hfd
    by_cases hc : fd = connfd
    · exact ⟨_, (hmem _).mpr (.head _), hc.symm⟩
    · obtain ⟨x, hx, hxfd⟩ := h.covered fd (by simpa [hc] using hfd)
      exact ⟨x, (hmem x).mpr (.tail _ hx), hxfd⟩
  · intro fd hfd
    simp [hne fd hfd, hfd]

/-- Giving a connection up takes away it and its timer. -/
theorem closeConn_idle {s : Server} {clock : Int} {heard : Nat → Int} {l : Timers Callback Nat}
    {sockfd : Nat} (h : Idle s clock heard l) (hopen : s.opened sockfd = true) :
    ∃ s' l', closeConn s sockfd (s.users sockfd).timer = some s' ∧ Idle s' clock heard l' ∧
      s'.opened = Function.update s.opened sockfd false := by
  obtain ⟨l₁, l₂, t, d, rfl, rfl, hrange, hslot, hdue, hpast, hothers⟩ := h.find hopen
  obtain ⟨lst, e, hlst⟩ := delTimer_repr h.repr
  refine ⟨_, l₁ ++ l₂, by simp [closeConn, cbFunc, hslot, e]; rfl,
    ⟨hlst, h.sorted.remove, ?_, ?_⟩, rfl⟩
  · intro x hx
    have hmem : x ∈ l₁ ++ (t, d) :: l₂ := by
      simp only [List.mem_append, List.mem_cons] at hx ⊢
      tauto
    have ht := h.timed x hmem
    exact { ht with opened := by simp [hothers x hx, ht.opened] }
  · intro fd hfd
    have hne : fd ≠ d.userData := by
      intro e
      simp [e] at hfd
    obtain ⟨x, hx, rfl⟩ := h.covered fd (by simpa [hne] using hfd)
    refine ⟨x, ?_, rfl⟩
    simp only [List.mem_append, List.mem_cons] at hx ⊢
    rcases hx with hx | rfl | hx
    · exact .inl hx
    · exact absurd rfl hne
    · exact .inr hx

theorem mem_split {l₁ l₂ : Timers Callback Nat} {x y : Nat × UtilTimer Callback Nat} :
    x ∈ l₁ ++ y :: l₂ ↔ x = y ∨ x ∈ l₁ ++ l₂ := by
  simp only [List.mem_append, List.mem_cons]
  tauto

/-- Data moves the timer of the connection. -/
theorem adjust_idle {s : Server} {clock cur : Int} {heard : Nat → Int} {l : Timers Callback Nat}
    {sockfd t : Nat} (h : Idle s clock heard l) (hcur : clock ≤ cur)
    (hopen : s.opened sockfd = true) (ht : (s.users sockfd).timer = some t) :
    ∃ lst l', exec s.timerLst (.adjust t (cur + 3 * timeslot)) = some lst ∧
      Idle { s with timerLst := lst } cur (Function.update heard sockfd cur) l' := by
  obtain ⟨l₁, l₂, t', d, rfl, rfl, hrange, hslot, hdue, hpast, hothers⟩ := h.find hopen
  obtain rfl : t' = t := by simpa [hslot] using ht
  obtain ⟨lst, e, hlst⟩ := exec_adjust h.repr (cur + 3 * timeslot)
  have hmem := fun x => (perm_insertBy (f := dueAt) l₁ l₂
    (t', ({ d with expire := cur + 3 * timeslot } : UtilTimer Callback Nat))).mem_iff (a := x)
  refine ⟨lst, _, e, ⟨hlst, h.sorted.move ?_, ?_, ?_⟩⟩
  · show d.expire ≤ cur + 3 * timeslot
    omega
  · intro x hx
    cases (hmem x).mp hx with
    | head => exact ⟨hopen, hslot, hrange, by simp, by simp⟩
    | tail _ hx =>
      have ht := h.timed x (mem_split.mpr (.inr hx))
      have hne := hothers x hx
      exact ⟨ht.opened, ht.slot, ht.range, by simp [hne, ht.due],
        by simpa [hne] using le_trans ht.past hcur⟩
  · intro fd hfd
    obtain ⟨x, hx, rfl⟩ := h.covered fd hfd
    rcases mem_split.mp hx with rfl | hx
    · exact ⟨_, (hmem _).mpr (.head _), rfl⟩
    · exact ⟨x, (hmem x).mpr (.tail _ hx), rfl⟩

theorem handleClient_idle {s : Server} {clock cur : Int} {heard : Nat → Int}
    {l : Timers Callback Nat} {sockfd : Nat} (h : Idle s clock heard l) (hcur : clock ≤ cur)
    (hopen : s.opened sockfd = true) (o : RecvOutcome) :
    ∃ s' l', handleClient s sockfd o cur = some s' ∧
      Idle s' cur (if broughtData o = true then Function.update heard sockfd cur else heard) l' ∧
      ∀ fd, fd ≠ sockfd → s.opened fd = true → s'.opened fd = true := by
  obtain ⟨l₁, l₂, t, d, -, -, hrange, hslot, -, -, -⟩ := h.find hopen
  have huser : user s sockfd = some { sockfd := sockfd, timer := some t } := by
    simp [user, hrange, hslot]
  have hclose : ∃ s' l', closeConn s sockfd (some t) = some s' ∧ Idle s' cur heard l' ∧
      ∀ fd, fd ≠ sockfd → s.opened fd = true → s'.opened fd = true := by
    obtain ⟨s', l', e, hs', ho⟩ := closeConn_idle h hopen
    refine ⟨s', l', by simpa [hslot] using e, hs'.later hcur, ?_⟩
    intro fd hne hfd
    simp [ho, hne, hfd]
  unfold handleClient broughtData
  simp only [huser]
  cases hrecv : recv (bufferSize - 1) o with
  | err e =>
    by_cases he : e = .again
    · exact ⟨s, l, by simp [he], by simpa using h.later hcur, fun fd _ hfd => hfd⟩
    · simpa [he] using hclose
  | got bs =>
    cases bs with
    | nil => simpa using hclose
    | cons b bs =>
      obtain ⟨lst, l', e, hs'⟩ := adjust_idle h hcur hopen (by rw [hslot])
      simp only [exec] at e
      refine ⟨{ s with timerLst := lst }, l', ?_, by simpa using hs', fun fd _ hfd => hfd⟩
      obtain ⟨m, em, e⟩ := Option.bind_eq_some_iff.mp e
      simp [em, e]

theorem foldl_call (l : Timers Callback Nat) (s : Server) :
    (l.foldl call s).timerLst = s.timerLst ∧ (l.foldl call s).users = s.users ∧
      ∀ fd, (l.foldl call s).opened fd = true ↔
        s.opened fd = true ∧ ∀ x ∈ l, (s.users x.2.userData).sockfd ≠ fd := by
  induction l generalizing s with
  | nil => simp
  | cons x l ih =>
    obtain ⟨hlst, husers, hopened⟩ := ih (call s x)
    have hc : call s x = cbFunc s x.2.userData := rfl
    refine ⟨by simpa [hc, cbFunc] using hlst, by simpa [hc, cbFunc] using husers, ?_⟩
    intro fd
    rw [List.foldl_cons, hopened]
    by_cases hfd : fd = (s.users x.2.userData).sockfd
    · simp [hc, cbFunc, hfd]
    · simp [hc, cbFunc, hfd, Ne.symm hfd]

/-- A tick closes the connections whose last data lies `3 * TIMESLOT` back, and no other. -/
theorem timerHandler_idle {s : Server} {clock cur : Int} {heard : Nat → Int}
    {l : Timers Callback Nat} (h : Idle s clock heard l) (hcur : clock ≤ cur) :
    ∃ s' l', timerHandler cur s = some s' ∧ Idle s' cur heard l' ∧
      ∀ fd, s'.opened fd = true ↔ s.opened fd = true ∧ ¬ heard fd ≤ cur - 3 * timeslot := by
  obtain ⟨lst, e, hlst⟩ := tick_repr cur h.repr
  have htake : l.takeWhile (Due cur) = l.filter fun x => x.2.expire ≤ cur :=
    h.sorted.takeWhile_eq_filter cur
  have hdrop : l.dropWhile (Due cur) = l.filter fun x => cur < x.2.expire :=
    h.sorted.dropWhile_eq_filter cur
  obtain ⟨hl, hu, ho⟩ := foldl_call (l.takeWhile (Due cur)) { s with timerLst := lst }
  have hclosed : ∀ fd, ((l.takeWhile (Due cur)).foldl call { s with timerLst := lst }).opened fd =
      true ↔ s.opened fd = true ∧ ¬ heard fd ≤ cur - 3 * timeslot := by
    intro fd
    rw [ho, htake]
    refine and_congr_right ?_
    intro hfd
    obtain ⟨x, hx, rfl⟩ := h.covered fd hfd
    have hxt := h.timed x hx
    constructor
    · intro hall hle
      refine hall x (List.mem_filter.mpr ⟨hx, ?_⟩) (by simp [hxt.slot])
      have := hxt.due
      simp only [decide_eq_true_eq]
      omega
    · intro hnle y hy
      obtain ⟨hy, hdue⟩ := List.mem_filter.mp hy
      have hyt := h.timed y hy
      simp only [hyt.slot]
      intro hyx
      have := hyt.due
      rw [hyx] at this
      simp only [decide_eq_true_eq] at hdue
      omega
  refine ⟨_, l.dropWhile (Due cur), by simp [timerHandler, e], ⟨?_, ?_, ?_, ?_⟩, hclosed⟩
  · rw [hl]
    exact hlst
  · exact List.Pairwise.sublist (List.dropWhile_sublist _) h.sorted
  · intro x hx
    rw [hdrop] at hx
    obtain ⟨hx, hlate⟩ := List.mem_filter.mp hx
    have hxt := h.timed x hx
    have := hxt.due
    simp only [decide_eq_true_eq] at hlate
    refine ⟨(hclosed _).mpr ⟨hxt.opened, by omega⟩, by simpa [hu] using hxt.slot, hxt.range,
      hxt.due, le_trans hxt.past hcur⟩
  · intro fd hfd
    obtain ⟨hfd, hnle⟩ := (hclosed fd).mp hfd
    obtain ⟨x, hx, rfl⟩ := h.covered fd hfd
    have := (h.timed x hx).due
    refine ⟨x, ?_, rfl⟩
    rw [hdrop]
    refine List.mem_filter.mpr ⟨hx, ?_⟩
    simp only [decide_eq_true_eq]
    omega

/-! ## Runs -/

section
variable {listenfd pipefd : Nat}

variable (listenfd pipefd) in
/-- Between any two steps: one timer for each open connection, and what is left of the round names
each descriptor once, and no closed connection. -/
def Inv (r : Run) : Prop :=
  ∃ s l, r.server = some s ∧ Idle s r.clock r.heard l ∧
    ∀ ready, r.round = some ready →
      ready.Nodup ∧ ∀ fd ∈ ready, fd = listenfd ∨ fd = pipefd ∨ s.opened fd = true

theorem handleSignals_opened (signals : List Signal) (s : Server) :
    (handleSignals s signals).timerLst = s.timerLst ∧ (handleSignals s signals).users = s.users ∧
      (handleSignals s signals).opened = s.opened := by
  induction signals generalizing s with
  | nil => exact ⟨rfl, rfl, rfl⟩
  | cons sig signals ih => cases sig <;> exact ih _

/-- One event of a round, for a descriptor the round may report. -/
theorem handleEvent_idle {s : Server} {clock : Int} {r : Run} {l : Timers Callback Nat}
    {sockfd : Nat} {a : Answer} (h : Idle s clock r.heard l) (hcur : clock ≤ a.cur)
    (hready : sockfd = listenfd ∨ sockfd = pipefd ∨ s.opened sockfd = true)
    (hlisten : sockfd = listenfd →
      a.connfd < fdLimit ∧ s.opened a.connfd = false ∧ s.timerLst.mem a.timer = none) :
    ∃ s' l', handleEvent listenfd pipefd s sockfd a = some s' ∧
      Idle s' a.cur (heardNow listenfd pipefd r sockfd a) l' ∧
      ∀ fd, fd ≠ sockfd → s.opened fd = true → s'.opened fd = true := by
  unfold handleEvent heardNow
  by_cases hl : sockfd = listenfd
  · obtain ⟨hrange, hnew, halloc⟩ := hlisten hl
    obtain ⟨s', l', e, hs', ho⟩ := handleListen_idle h hcur hrange hnew halloc
    exact ⟨s', l', by simpa [hl] using e, by simpa [hl] using hs', fun fd _ => ho fd⟩
  by_cases hin : a.epollin = true
  · by_cases hp : sockfd = pipefd
    · subst hp
      obtain ⟨h₁, h₂, h₃⟩ := handleSignals_opened a.signals s
      refine ⟨handleSignals s a.signals, l, by simp [hl, hin], ?_, ?_⟩
      · have hs := h.later hcur
        simp only [hl, if_false, not_true, false_and]
        refine ⟨h₁ ▸ hs.repr, hs.sorted, ?_, by simpa [h₃] using hs.covered⟩
        intro x hx
        have hx := hs.timed x hx
        exact ⟨by simpa [h₃] using hx.opened, by simpa [h₂] using hx.slot, hx.range, hx.due,
          hx.past⟩
      · intro fd _ hfd
        rwa [h₃]
    · have hopen : s.opened sockfd = true := by tauto
      obtain ⟨s', l', e, hs', ho⟩ := handleClient_idle h hcur hopen a.recv
      exact ⟨s', l', by simpa [hl, hp, hin] using e, by simpa [hl, hp, hin] using hs', ho⟩
  · refine ⟨s, l, by simp [hl, hin], by simpa [hl, hin] using h.later hcur, ?_⟩
    intro fd _ hfd
    exact hfd

theorem not_open {r : Run} {s : Server} (hs : r.server = some s) {fd : Nat}
    (h : ¬ isOpen r fd) : s.opened fd = false := by
  cases ho : s.opened fd with
  | false => rfl
  | true => exact absurd ⟨s, hs, ho⟩ h

theorem inv_step (r : Run) (i : Input) (h : Inv listenfd pipefd r)
    (hok : (machine listenfd pipefd).ok r i) :
    Inv listenfd pipefd ((machine listenfd pipefd).step r i) := by
  obtain ⟨s, l, hs, hidle, hround⟩ := h
  cases i with
  | wait ready =>
    obtain ⟨-, -, hnd, hall⟩ := hok
    refine ⟨s, l, hs, hidle, ?_⟩
    intro ready' e
    obtain rfl : ready = ready' := by simpa [machine, step] using e
    refine ⟨hnd, ?_⟩
    intro fd hfd
    rcases hall fd hfd with h | h | ⟨s', hs', h⟩
    · exact .inl h
    · exact .inr (.inl h)
    · rw [hs] at hs'
      cases hs'
      exact .inr (.inr h)
  | event a =>
    obtain ⟨sockfd, rest, hr, hcur, hlisten⟩ := hok
    obtain ⟨hnd, hall⟩ := hround _ hr
    obtain ⟨hnot, hnd⟩ := List.nodup_cons.mp hnd
    obtain ⟨s', l', e, hs', ho⟩ := handleEvent_idle hidle hcur (hall sockfd (by simp))
      (fun hl => ⟨(hlisten hl).1, not_open hs (hlisten hl).2.1, (hlisten hl).2.2 s hs⟩)
    refine ⟨s', l', by simp [machine, step, hr, hs, e], by simpa [machine, step, hr] using hs', ?_⟩
    intro ready er
    obtain rfl : rest = ready := by simpa [machine, step, hr] using er
    refine ⟨hnd, ?_⟩
    intro fd hfd
    have hne : fd ≠ sockfd := fun e => hnot (e ▸ hfd)
    rcases hall fd (List.mem_cons_of_mem _ hfd) with h | h | h
    · exact .inl h
    · exact .inr (.inl h)
    · exact .inr (.inr (ho fd hne h))
  | timeout cur =>
    obtain ⟨-, hcur⟩ := hok
    by_cases ht : s.timeout = true
    · obtain ⟨s', l', e, hs', -⟩ := timerHandler_idle hidle hcur
      refine ⟨{ s' with timeout := false }, l', by simp [machine, step, endRound, hs, ht, e],
        ⟨hs'.repr, hs'.sorted, ?_, hs'.covered⟩, by simp [machine, step]⟩
      intro x hx
      exact { hs'.timed x hx with }
    · exact ⟨s, l, by simp [machine, step, endRound, hs, ht], hidle.later hcur,
        by simp [machine, step]⟩

/-- The open connections, the timers and `users` agree: the timers `l` that following `timer_lst`
visits are, one for each, those of the open connections, and `users[fd].timer` points to it. -/
def OneTimerEach (r : Run) : Prop :=
  ∃ s l, r.server = some s ∧
    Forward s.timerLst.mem s.timerLst.head (keys l) ∧
    (∀ x ∈ l, ∃ c, s.timerLst.mem x.1 = some c ∧ c.data = x.2) ∧
    (∀ fd, s.opened fd = true →
      ∃ x, l.filter (fun y => y.2.userData = fd) = [x] ∧ (s.users fd).timer = some x.1) ∧
    ∀ x ∈ l, s.opened x.2.userData = true

/-- A tick closes exactly the open connections last heard `3 * TIMESLOT` ago or earlier. -/
def TickExact (listenfd pipefd : Nat) (r : Run) (i : Input) : Prop :=
  ∀ s cur, r.server = some s → i = .timeout cur → s.timeout = true →
    ∀ fd, isOpen ((machine listenfd pipefd).step r i) fd ↔
      isOpen r fd ∧ ¬ r.heard fd ≤ cur - 3 * timeslot

theorem Idle.oneTimer {s : Server} {clock : Int} {heard : Nat → Int} {l : Timers Callback Nat}
    (h : Idle s clock heard l) {fd : Nat} (hfd : s.opened fd = true) :
    ∃ x, l.filter (fun y => y.2.userData = fd) = [x] ∧ (s.users fd).timer = some x.1 := by
  obtain ⟨l₁, l₂, t, d, rfl, hd, -, hslot, -, -, hothers⟩ := h.find hfd
  have hnone : ∀ l' : Timers Callback Nat, (∀ x ∈ l', x.2.userData ≠ fd) →
      l'.filter (fun y => y.2.userData = fd) = [] := by
    intro l' hl'
    exact List.filter_eq_nil_iff.mpr fun x hx => by simpa using hl' x hx
  refine ⟨(t, d), ?_, by rw [hslot]⟩
  rw [List.filter_append, List.filter_cons_of_pos (by simpa using hd),
    hnone l₁ fun x hx => hothers x (List.mem_append_left _ hx),
    hnone l₂ fun x hx => hothers x (List.mem_append_right _ hx), List.nil_append]

theorem Inv.tickExact {r : Run} {i : Input} (h : Inv listenfd pipefd r)
    (hok : (machine listenfd pipefd).ok r i) : TickExact listenfd pipefd r i := by
  obtain ⟨s, l, hs, hidle, -⟩ := h
  intro s₀ cur hs₀ hi ht fd
  subst hi
  rw [hs] at hs₀
  cases hs₀
  obtain ⟨s', l', e, -, ho⟩ := timerHandler_idle hidle hok.2
  simp [isOpen, machine, step, endRound, hs, ht, e, ho]

/-- In every run of the server, whatever its rounds report: each open connection has exactly one
timer in `timer_lst`, the one its slot of `users` points to, and no closed connection has one; and
each tick closes exactly the connections that have been silent for `3 * TIMESLOT`. -/
theorem one_timer_each (listenfd pipefd : Nat) (users : Nat → ClientData) (clock : Int)
    (is : List Input) (h : (machine listenfd pipefd).Valid (start users clock) is) :
    (machine listenfd pipefd).Always OneTimerEach (start users clock) is ∧
      (machine listenfd pipefd).Each (TickExact listenfd pipefd) (start users clock) is := by
  have hstart : Inv listenfd pipefd (start users clock) :=
    ⟨_, [], rfl, ⟨repr_init, .nil, by simp, by simp⟩, by simp [start]⟩
  constructor
  · refine (Machine.always_inv inv_step hstart h).imp ?_
    intro r hr
    obtain ⟨s, l, hs, hidle, -⟩ := hr
    refine ⟨s, l, hs, ?_, fun x hx => hidle.repr.seg.load hx, fun fd hfd => hidle.oneTimer hfd,
      fun x hx => (hidle.timed x hx).opened⟩
    rw [hidle.repr.head]
    exact hidle.repr.seg.forward
  · exact Machine.each_inv inv_step (fun r i hr hok => hr.tickExact hok) hstart h

/-- Client 7 is accepted on 3, sends data at 105 beside a SIGALRM on 4, and is closed at 120. -/
def idleRun : List Input :=
  [.wait [3],
   .event ⟨true, 7, 1, [], .data [], 100⟩,
   .timeout 100,
   .wait [7, 4],
   .event ⟨true, 0, 0, [], .data [104], 105⟩,
   .event ⟨true, 0, 0, [.sigalrm], .data [], 106⟩,
   .timeout 120]

theorem one_timer_each_run :
    (machine 3 4).Always OneTimerEach (start (fun _ => ⟨0, none⟩) 99) idleRun ∧
      (machine 3 4).Each (TickExact 3 4) (start (fun _ => ⟨0, none⟩) 99) idleRun := by
  refine one_timer_each 3 4 _ 99 _ ?_
  refine ⟨by simp [machine, Allowed, start], ?_⟩
  refine ⟨⟨3, [], by simp [machine, step], by decide, ?_⟩, ?_⟩
  · intro _
    refine ⟨by decide, by simp [isOpen, machine, step, start], ?_⟩
    intro s hs
    simp [machine, step, start, LstTimer.init] at hs
    simp [← hs]
  refine ⟨⟨rfl, by decide⟩, ⟨rfl, ?_, by decide, ?_⟩, ⟨7, [4], rfl, by decide, by simp⟩,
    ⟨4, [], rfl, by decide, by simp⟩, ⟨rfl, by decide⟩, trivial⟩
  · intro s hs
    simp [machine, step, start, handleEvent, handleListen, user, fdLimit, addTimer, LstTimer.init,
      endRound] at hs
    simp [← hs]
  · simp [isOpen, machine, step, start, handleEvent, handleListen, user, fdLimit, addTimer,
      LstTimer.init, endRound]

end

end NonactiveConn
end Unpvol1
