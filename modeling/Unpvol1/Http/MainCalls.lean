import Unpvol1.Http.MainLoop

/-!
# Http.MainCalls

The server of `MainLoop` with each call of `main` a step of its own, so that a worker may run
between any two: between `accept` and `init`, between `read` and what `main` makes of its result,
between the two halves of `append`.

* `Next`     — the call `main` makes next. `Stage` — a state of the server, and that call.
* `SlotCall` — the calls that open and close a slot of `users`, of which a `Stage` keeps the record.
* `callsMachine` — the machine of these steps.
* `event_calls`  — with no worker between them, the calls of an event are the event as one step.
* `run_calls`    — so each run of the one machine is one of the other.
-/

namespace Unpvol1
namespace MainLoop

open HttpConnWrite (processWrite)

/-- The call `main` makes next. -/
inductive Next where
  /-- Whatever the next event asks for first, or `epoll_wait`. -/
  | event
  /-- `m_user_count` compared with `MAX_FD`. -/
  | checkCount (connfd : Int)
  | showError (connfd : Int)
  | init (connfd : Int)
  | closeConn (fd : Int)
  | append (fd : Int)
  /-- In `append`, the queue unlocked. -/
  | post
deriving DecidableEq

/-- `users[ fd ].init( fd, addr )` or `users[ fd ].close_conn()` -/
inductive SlotCall where
  | init (fd : Int)
  | closeConn (fd : Int)
deriving DecidableEq

/-- `calls` is what has been called on the slots, the latest first. -/
structure Stage where
  server : Server
  next : Next
  calls : List SlotCall

/-- The first call for an event, and what comes after it. -/
def takeEvent (g : Setup) (s : Server) (e : Event) (r : Replies) : Option (Server × Next) :=
  if e.fd = g.listenfd then
    match r.accepted with
    | none => some (s, .event)
    | some connfd => some ({ s with kernel := s.kernel.openFd connfd }, .checkCount connfd)
  else if e.down then
    some (s, .closeConn e.fd)
  else if e.epollin then
    (read s e.fd r.recvs).map fun (ret, s) => (s, if ret then .append e.fd else .closeConn e.fd)
  else if e.epollout then
    (write s e.fd r.writevs).map fun (ret, s) => (s, if ret then .event else .closeConn e.fd)
  else
    some (s, .event)

/-- `append` up to the release of the lock. -/
def appendCall (semValueMax : Nat) (s : Server) (fd : Int) : Server × Next :=
  if (Threadpool.appendLocked s.threads.pool (some fd)).2 then
    ({ s with threads := Threadpool.step semValueMax s.threads (.append 0 (some fd)) }, .post)
  else (s, .event)

def mainStep (g : Setup) (t : Stage) (r : Replies) : Stage :=
  match t.next with
  | .event =>
    match t.server.batch with
    | [] => t
    | e :: rest =>
      match takeEvent g { t.server with batch := rest } e r with
      | none => t
      | some (s, next) => { t with server := s, next := next }
  | .checkCount connfd =>
    { t with next := if t.server.userCount ≥ maxFd then .showError connfd else .init connfd }
  | .showError connfd =>
    { t with
      server := { t.server with kernel := t.server.kernel.close connfd }
      next := .event }
  | .init connfd =>
    { server := t.server.init connfd
      next := .event
      calls := .init connfd :: t.calls }
  | .closeConn fd =>
    { server := t.server.closeConn fd
      next := .event
      calls := .closeConn fd :: t.calls }
  | .append fd =>
    let (s, next) := appendCall g.semValueMax t.server fd
    { t with server := s, next := next }
  | .post =>
    { t with
      server := { t.server with
        threads := Threadpool.step g.semValueMax t.server.threads (.post 0) }
      next := .event }

/-- `process` comes to its `close_conn`. -/
def processCloses (s : Server) (fd : Int) (p : Parsed) : Bool :=
  p.readRet ≠ .noRequest && !(processWrite { (s.users fd).out with
    linger := p.linger, fileAddress := p.fileAddress, fileSize := p.fileSize } p.readRet).2

/-- The call of `process` on its own slot. -/
def closes (s : Server) (fd : Int) (p : Parsed) : List SlotCall :=
  if processCloses s fd p then [.closeConn fd] else []

def processCalls (s : Server) (j : Nat) (p : Parsed) : List SlotCall :=
  match s.threads.workers[j]? with
  | some (.processing fd) => closes s fd p
  | _ => []

/-- A step of `main` is its next call, with what the system calls in it return. -/
def callStep (g : Setup) (t : Stage) : Step → Stage
  | .event r => mainStep g t r
  | .process j p =>
    { t with
      server := stepProcess g t.server j p
      calls := processCalls t.server j p ++ t.calls }
  | st => { t with server := step g t.server st }

def callEnabled (g : Setup) (t : Stage) : Step → Prop
  | .epollWait events => t.next = .event ∧ enabled g t.server (.epollWait events)
  | .event r => t.next = .event → ∃ e rest, t.server.batch = e :: rest ∧
      Acceptable t.server r ∧ takeEvent g { t.server with batch := rest } e r ≠ none
  | st => enabled g t.server st

def callsMachine (g : Setup) : Machine Stage Step where
  step := callStep g
  ok := callEnabled g

def firstStage (g : Setup) (users : Int → User) (threadNumber maxRequests : Nat) : Stage where
  server := start g users threadNumber maxRequests
  next := .event
  calls := []

/-! ## The calls of one event -/

/-- The calls that are left, made one after the other. -/
def finish (g : Setup) (s : Server) : Next → Server
  | .event => s
  | .checkCount connfd =>
    if s.userCount ≥ maxFd then { s with kernel := s.kernel.close connfd } else s.init connfd
  | .showError connfd => { s with kernel := s.kernel.close connfd }
  | .init connfd => s.init connfd
  | .closeConn fd => s.closeConn fd
  | .append fd => (append g.semValueMax s fd).1
  | .post => { s with threads := Threadpool.step g.semValueMax s.threads (.post 0) }

theorem handle_eq (g : Setup) (s : Server) (e : Event) (r : Replies) :
    handle g s e r = (takeEvent g s e r).map fun p => finish g p.1 p.2 := by
  unfold handle takeEvent
  split
  · cases r.accepted with
    | none => rfl
    | some connfd => rfl
  · unfold handleClient
    split
    · rfl
    · split
      · cases read s e.fd r.recvs with
        | none => rfl
        | some p =>
          obtain ⟨ret, s'⟩ := p
          cases ret <;> rfl
      · split
        · cases write s e.fd r.writevs with
          | none => rfl
          | some p =>
            obtain ⟨ret, s'⟩ := p
            cases ret <;> rfl
        · rfl

/-- `t` is where `main` is done with an event, in server state `s`. -/
def Done (s : Server) (t : Stage) : Prop := t.server = s ∧ t.next = .event

/-- `main` comes to `Done s` by its own calls, the kernel replying `r`. -/
def Reaches (g : Setup) (r : Replies) (t : Stage) (s : Server) : Prop :=
  ∃ n, (callsMachine g).Valid t (List.replicate n (.event r)) ∧
    Done s ((callsMachine g).run t (List.replicate n (.event r)))

theorem Reaches.here (g : Setup) (r : Replies) {t : Stage} (h : t.next = .event) :
    Reaches g r t t.server := ⟨0, trivial, rfl, h⟩

theorem Reaches.call {g : Setup} {r : Replies} {t : Stage} {s : Server}
    (hok : callEnabled g t (.event r)) (h : Reaches g r (mainStep g t r) s) : Reaches g r t s := by
  obtain ⟨n, hv, hdone⟩ := h
  exact ⟨n + 1, ⟨hok, hv⟩, hdone⟩

/-- In the middle of an event the next call can be made. -/
theorem Reaches.next {g : Setup} {r : Replies} {s s' : Server} {next : Next}
    {calls : List SlotCall} (hne : next ≠ .event)
    (h : Reaches g r (mainStep g ⟨s, next, calls⟩ r) s') : Reaches g r ⟨s, next, calls⟩ s' :=
  Reaches.call (fun he => absurd he hne) h

theorem finish_calls (g : Setup) (r : Replies) (t : Stage) :
    Reaches g r t (finish g t.server t.next) := by
  obtain ⟨s, next, calls⟩ := t
  cases next with
  | event => exact Reaches.here g r rfl
  | checkCount connfd =>
    refine Reaches.next (by simp) ?_
    by_cases hbusy : s.userCount ≥ maxFd
    · simp only [mainStep, finish, if_pos hbusy]
      exact Reaches.next (by simp) (Reaches.here g r rfl)
    · simp only [mainStep, finish, if_neg hbusy]
      exact Reaches.next (by simp) (Reaches.here g r rfl)
  | append fd =>
    refine Reaches.next (by simp) ?_
    by_cases hroom : (Threadpool.appendLocked s.threads.pool (some fd)).2 = true
    · simp only [mainStep, appendCall, finish, append, if_pos hroom]
      exact Reaches.next (by simp) (Reaches.here g r rfl)
    · simp only [mainStep, appendCall, finish, append, if_neg hroom]
      exact Reaches.here g r rfl
  | showError connfd => exact Reaches.next (by simp) (Reaches.here g r rfl)
  | init connfd => exact Reaches.next (by simp) (Reaches.here g r rfl)
  | closeConn fd => exact Reaches.next (by simp) (Reaches.here g r rfl)
  | post => exact Reaches.next (by simp) (Reaches.here g r rfl)

/-- With no worker between them, the calls of an event are the event as one step. -/
theorem event_calls {g : Setup} {t : Stage} {r : Replies} (hnext : t.next = .event)
    (hok : enabled g t.server (.event r)) : Reaches g r t (stepEvent g t.server r) := by
  obtain ⟨e, rest, hb, haccept, hret⟩ := hok
  rw [handle_eq] at hret
  have htake : takeEvent g { t.server with batch := rest } e r ≠ none := by
    intro hnone
    rw [hnone] at hret
    exact hret rfl
  obtain ⟨⟨s, next⟩, hs⟩ := Option.ne_none_iff_exists'.mp htake
  have hstep : mainStep g t r = { t with server := s, next := next } := by
    simp only [mainStep, hnext, hb, hs]
  have hevent : stepEvent g t.server r = finish g s next := by
    simp only [stepEvent, hb, handle_eq, hs, Option.map_some, Option.getD_some]
  rw [hevent]
  refine Reaches.call (fun _ => ⟨e, rest, hb, haccept, htake⟩) ?_
  rw [hstep]
  exact finish_calls g r { t with server := s, next := next }

theorem step_calls {g : Setup} {t : Stage} (hnext : t.next = .event) {st : Step}
    (hok : enabled g t.server st) :
    ∃ sts, (callsMachine g).Valid t sts ∧
      Done (step g t.server st) ((callsMachine g).run t sts) := by
  cases st with
  | event r =>
    obtain ⟨n, hv, hdone⟩ := event_calls hnext hok
    exact ⟨_, hv, hdone⟩
  | epollWait events => exact ⟨[.epollWait events], ⟨⟨hnext, hok⟩, trivial⟩, rfl, hnext⟩
  | test j => exact ⟨[.test j], ⟨hok, trivial⟩, rfl, hnext⟩
  | wait j eintr => exact ⟨[.wait j eintr], ⟨hok, trivial⟩, rfl, hnext⟩
  | pop j => exact ⟨[.pop j], ⟨hok, trivial⟩, rfl, hnext⟩
  | process j p => exact ⟨[.process j p], ⟨hok, trivial⟩, rfl, hnext⟩

/-- Each run with an event as one step is one of single calls. -/
theorem run_calls {g : Setup} {t : Stage} (hnext : t.next = .event) {steps : List Step}
    (hv : (machine g).Valid t.server steps) :
    ∃ sts, (callsMachine g).Valid t sts ∧
      Done ((machine g).run t.server steps) ((callsMachine g).run t sts) := by
  induction steps generalizing t with
  | nil => exact ⟨[], trivial, rfl, hnext⟩
  | cons st steps ih =>
    obtain ⟨sts, hvs, hserver, hnext'⟩ := step_calls hnext hv.1
    have hrest : (machine g).Valid ((callsMachine g).run t sts).server steps := by
      rw [hserver]
      exact hv.2
    obtain ⟨sts', hvs', hdone⟩ := ih hnext' hrest
    refine ⟨sts ++ sts', Machine.valid_append.mpr ⟨hvs, hvs'⟩, ?_⟩
    rw [Machine.run_append, Machine.run_cons]
    rw [hserver] at hdone
    exact hdone

end MainLoop
end Unpvol1
