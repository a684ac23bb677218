import Unpvol1.Lib.Kernel
import Unpvol1.Http.HttpConnWrite
import Unpvol1.Http.Threadpool

/-!
# Http.MainLoop

The web server of `main`: one thread waits in `epoll_wait` and handles the events of each batch, the
workers of a `threadpool` process the requests it appends.

* `addfd`, `modfd`, `closeConn`, `init`, `read`, `write`, `process` — `http_conn`, as far as it goes
  with the descriptor: what is registered, what is closed, what the call returns.
* `handle`  — what `main` does with one event.
* `machine` — `epoll_wait`, one event of the batch, or one step of a worker, in any order. Each call
  is one step, from its start to its end.

What `process_read` makes of the bytes read, and what the system calls return, is the environment's.
-/

namespace Unpvol1
namespace MainLoop

open HttpConn (HttpCode readBufferSize)
open HttpConnWrite (WriteSide WriteEnd Writev processWrite)

def maxFd : Int := 65536

def maxEventNumber : Nat := 10000

/-- `EPOLLIN` or `EPOLLOUT`. -/
inductive Ready where
  | epollin
  | epollout
deriving DecidableEq

/-- What epoll holds for a descriptor. One registered with `EPOLLONESHOT` is disabled once it has
been reported, until `EPOLL_CTL_MOD`. -/
structure Registered where
  ev : Ready
  oneshot : Bool
  enabled : Bool
deriving DecidableEq

def Registered.reported (r : Registered) : Registered :=
  if r.oneshot then { r with enabled := false } else r

structure Event where
  fd : Int
  rdhup : Bool
  hup : Bool
  err : Bool
  epollin : Bool
  epollout : Bool
deriving DecidableEq

/-- `EPOLLRDHUP | EPOLLHUP | EPOLLERR` -/
def Event.down (e : Event) : Bool := e.rdhup || e.hup || e.err

/-- The members of `http_conn` its calls from `main` and `run` decide by. -/
structure User where
  sockfd : Int
  readIdx : Nat
  out : WriteSide

/-- What `main` starts its loop with: the descriptors open by then, the listening one among them. -/
structure Setup where
  listenfd : Int
  opened : Int → Bool
  semValueMax : Nat
  listens : opened listenfd = true
  nonneg : ∀ fd, opened fd = true → 0 ≤ fd

/-- `batch` is what is left of `events`. -/
structure Server where
  kernel : Kernel Registered
  users : Int → User
  userCount : Int
  batch : List Event
  threads : Threadpool.State Int

def addfd (k : Kernel Registered) (fd : Int) (oneShot : Bool) : Kernel Registered :=
  k.ctlAdd fd { ev := .epollin, oneshot := oneShot, enabled := true }

def modfd (k : Kernel Registered) (fd : Int) (ev : Ready) : Kernel Registered :=
  k.ctlMod fd { ev := ev, oneshot := true, enabled := true }

def removefd (k : Kernel Registered) (fd : Int) : Kernel Registered := (k.ctlDel fd).close fd

namespace Server

def setUser (s : Server) (fd : Int) (u : User) : Server :=
  { s with users := Function.update s.users fd u }

/-- `modfd( m_epollfd, m_sockfd, ev )` in `users[ fd ]`. -/
def rearm (s : Server) (fd : Int) (ev : Ready) : Server :=
  { s with kernel := modfd s.kernel (s.users fd).sockfd ev }

/-- `users[ fd ].close_conn()` -/
def closeConn (s : Server) (fd : Int) : Server :=
  if (s.users fd).sockfd ≠ -1 then
    { s with
      kernel := removefd s.kernel (s.users fd).sockfd
      users := Function.update s.users fd { s.users fd with sockfd := -1 }
      userCount := s.userCount - 1 }
  else s

end Server

/-- `init()` -/
def User.init (u : User) : User := { u with readIdx := 0, out := HttpConnWrite.init u.out }

/-- `users[ connfd ].init( connfd, client_address )` -/
def Server.init (s : Server) (connfd : Int) : Server :=
  { s with
    kernel := addfd s.kernel connfd true
    users := Function.update s.users connfd { s.users connfd with sockfd := connfd }.init
    userCount := s.userCount + 1 }

/-- What a `recv` finds: bytes (none of them at the end of the stream), nothing yet, or an error. -/
inductive Recv where
  | bytes (n : Nat)
  | again
  | fail
deriving DecidableEq

/-- The loop of `read`, which has no result before it returns. `recv` is asked for no more than fits
the buffer. -/
def readLoop (readIdx : Nat) : List Recv → Option (Bool × Nat)
  | [] => none
  | .again :: _ => some (true, readIdx)
  | .fail :: _ => some (false, readIdx)
  | .bytes n :: outcomes =>
    let bytesRead := min n (readBufferSize - readIdx)
    if bytesRead = 0 then some (false, readIdx) else readLoop (readIdx + bytesRead) outcomes

/-- `users[ fd ].read()` -/
def read (s : Server) (fd : Int) (outcomes : List Recv) : Option (Bool × Server) :=
  let u := s.users fd
  if u.readIdx ≥ readBufferSize then
    some (false, s)
  else do
    let (ret, readIdx) ← readLoop u.readIdx outcomes
    some (ret, s.setUser fd { u with readIdx := readIdx })

/-- `users[ fd ].write()` -/
def write (s : Server) (fd : Int) (outcomes : List Writev) : Option (Bool × Server) := do
  let (ended, out, _) ← HttpConnWrite.write (s.users fd).out outcomes
  let u := { s.users fd with out := out }
  some (ended.returned,
    match ended with
    | .nothing | .kept => (s.setUser fd u.init).rearm fd .epollin
    | .again => (s.setUser fd u).rearm fd .epollout
    | .error => s.setUser fd u
    -- the descriptor is armed again before `main` closes it
    | .closing => (s.setUser fd u).rearm fd .epollin)

/-- What `process_read` returns and leaves in the members the response is prepared from. -/
structure Parsed where
  readRet : HttpCode
  linger : Bool
  fileAddress : Option (List UInt8)
  fileSize : Nat

/-- `users[ fd ].process()` -/
def process (s : Server) (fd : Int) (p : Parsed) : Server :=
  let u := s.users fd
  let out := { u.out with
    linger := p.linger, fileAddress := p.fileAddress, fileSize := p.fileSize }
  if p.readRet = .noRequest then
    (s.setUser fd { u with out := out }).rearm fd .epollin
  else
    let (out, writeRet) := processWrite out p.readRet
    let s := s.setUser fd { u with out := out }
    let s := if writeRet then s else s.closeConn fd
    -- `m_sockfd` is -1 after `close_conn`
    s.rearm fd .epollout

/-- `pool->append( users + fd )` -/
def append (semValueMax : Nat) (s : Server) (fd : Int) : Server × Bool :=
  if (Threadpool.appendLocked s.threads.pool (some fd)).2 then
    let threads := Threadpool.step semValueMax s.threads (.append 0 (some fd))
    ({ s with threads := Threadpool.step semValueMax threads (.post 0) }, true)
  else (s, false)

/-- What the system calls of one event return; `accept` fails without a descriptor. -/
structure Replies where
  accepted : Option Int
  recvs : List Recv
  writevs : List Writev

/-- `accept`, and what `main` does with the descriptor. -/
def handleListen (s : Server) : Option Int → Server
  | none => s
  | some connfd =>
    let s := { s with kernel := s.kernel.openFd connfd }
    if s.userCount ≥ maxFd then
      -- `show_error`
      { s with kernel := s.kernel.close connfd }
    else s.init connfd

/-- The event of a client. What `append` returns is not looked at. -/
def handleClient (semValueMax : Nat) (s : Server) (e : Event) (r : Replies) : Option Server :=
  if e.down then
    some (s.closeConn e.fd)
  else if e.epollin then
    (read s e.fd r.recvs).map fun (ret, s) =>
      if ret then (append semValueMax s e.fd).1 else s.closeConn e.fd
  else if e.epollout then
    (write s e.fd r.writevs).map fun (ret, s) =>
      if ret then s else s.closeConn e.fd
  else
    some s

def handle (g : Setup) (s : Server) (e : Event) (r : Replies) : Option Server :=
  if e.fd = g.listenfd then some (handleListen s r.accepted)
  else handleClient g.semValueMax s e r

inductive Step where
  | epollWait (events : List Event)
  /-- `main` handles the next event of the batch. -/
  | event (r : Replies)
  | test (j : Nat)
  | wait (j : Nat) (eintr : Bool)
  | pop (j : Nat)
  | process (j : Nat) (p : Parsed)

/-- What `epoll_wait` does to the descriptors it reports. -/
def report (k : Kernel Registered) (events : List Event) : Kernel Registered :=
  { k with
    interest := fun fd =>
      if fd ∈ events.map Event.fd then (k.interest fd).map Registered.reported
      else k.interest fd }

def stepProcess (g : Setup) (s : Server) (j : Nat) (p : Parsed) : Server :=
  match s.threads.workers[j]? with
  | some (.processing fd) =>
    process { s with threads := Threadpool.step g.semValueMax s.threads (.processed j) } fd p
  | _ => s

def stepEvent (g : Setup) (s : Server) (r : Replies) : Server :=
  match s.batch with
  | [] => s
  | e :: rest => (handle g { s with batch := rest } e r).getD s

def step (g : Setup) (s : Server) : Step → Server
  | .epollWait events => { s with kernel := report s.kernel events, batch := events }
  | .event r => stepEvent g s r
  | .test j => { s with threads := Threadpool.step g.semValueMax s.threads (.test j) }
  | .wait j eintr => { s with threads := Threadpool.step g.semValueMax s.threads (.wait j eintr) }
  | .pop j => { s with threads := Threadpool.step g.semValueMax s.threads (.pop j) }
  | .process j p => stepProcess g s j p

/-- epoll reports a descriptor while it is enabled, and nothing it was not asked for but an error or
a hang-up. -/
structure Reportable (r : Registered) (e : Event) : Prop where
  enabled : r.enabled = true
  epollin : e.epollin = true → r.ev = .epollin
  epollout : e.epollout = true → r.ev = .epollout
  nonempty : (e.down || e.epollin || e.epollout) = true

/-- What `accept` returns was not open, and is an index of `users`. -/
def Acceptable (s : Server) (r : Replies) : Prop :=
  ∀ connfd ∈ r.accepted, s.kernel.Fresh connfd ∧ connfd < maxFd

/-- When `main` or a worker can take a step, and what its calls can return. -/
def enabled (g : Setup) (s : Server) : Step → Prop
  | .epollWait events => s.batch = [] ∧ events.length ≤ maxEventNumber ∧
      (events.map Event.fd).Nodup ∧
      ∀ e ∈ events, ∃ r, s.kernel.interest e.fd = some r ∧ Reportable r e
  | .event r => ∃ e rest, s.batch = e :: rest ∧ Acceptable s r ∧
      handle g { s with batch := rest } e r ≠ none
  | .test j => Threadpool.enabled s.threads (.test j)
  | .wait j eintr => Threadpool.enabled s.threads (.wait j eintr)
  | .pop j => Threadpool.enabled s.threads (.pop j)
  | .process j _ => Threadpool.enabled s.threads (.processed j)

def machine (g : Setup) : Machine Server Step where
  step := step g
  ok := enabled g

/-- As `main` enters its loop; `users` is not initialised. -/
def start (g : Setup) (users : Int → User) (threadNumber maxRequests : Nat) : Server where
  kernel := addfd { opened := g.opened, interest := fun _ => none, log := fun _ => .empty }
    g.listenfd false
  users := users
  userCount := 0
  batch := []
  threads := Threadpool.start 1 threadNumber maxRequests

end MainLoop
end Unpvol1
