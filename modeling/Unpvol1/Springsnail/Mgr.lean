import Unpvol1.Lib.Kernel
import Unpvol1.Lib.Machine
import Unpvol1.Lib.StdMap
import Unpvol1.Springsnail.Conn

/-!
# Springsnail.Mgr

The connection manager of one springsnail child (`mgr.h`, `mgr.cpp`), with the epoll helpers of
`fdwrapper.cpp`.

A `conn*` is `Option Nat`: an index into `heap`, or NULL. `m_used[ fd ]` is a lookup that first
inserts NULL under a missing key, `insert` does not overwrite. `m_freed` only ever receives a
pointer that `free_conn` has just dereferenced, so its values are plain indices. The manager's
system calls act on the kernel state `ker`; the answers they get are parameters.

Left out: the log texts, the `sleep` calls and `m_logic_srv`, whose address only `connect` sees.
-/

namespace Unpvol1
namespace Springsnail

/-- `OP_TYPE` of `fdwrapper.h`. -/
inductive OpType where
  | read
  | write
  | error
  deriving DecidableEq, Repr

/-- An epoll event mask; `EPOLLET` is always set and nothing reads it. -/
structure Interest where
  input : Bool
  output : Bool
  deriving DecidableEq, Repr

def epollin : Interest := ⟨true, false⟩

def epollout : Interest := ⟨false, true⟩

abbrev FdMap (α : Type) := StdMap Int α

/-- The kernel's answers to the calls one `process` may make. -/
structure Io where
  recvs : List RecvOutcome
  sends : List SendOutcome

structure Mgr where
  heap : Nat → Conn
  created : Nat
  conns : FdMap (Option Nat)
  used : FdMap (Option Nat)
  freed : FdMap Nat
  ker : Kernel Interest

namespace Mgr

/-! ## fdwrapper.cpp -/

def addReadFd (fd : Int) (m : Mgr) : Mgr := { m with ker := m.ker.ctlAdd fd epollin }

def closefd (fd : Int) (m : Mgr) : Mgr := { m with ker := (m.ker.ctlDel fd).close fd }

def modfd (fd : Int) (ev : Interest) (m : Mgr) : Mgr := { m with ker := m.ker.ctlMod fd ev }

/-! ## Construction -/

/-- One round of the constructor's loop: the connection is refused, `new conn` throws and the
descriptor is closed again, or the connection is made. -/
inductive BuildOutcome where
  | refused
  | noMemory (fd : Int)
  | built (fd : Int)

def buildConn (m : Mgr) : BuildOutcome → Mgr
  | .refused => m
  | .noMemory fd => { m with ker := (m.ker.openFd fd).close fd }
  | .built fd =>
    { m with
      heap := Function.update m.heap m.created (Conn.create.initSrv fd)
      created := m.created + 1
      conns := m.conns.insertIfNew fd (some m.created)
      ker := m.ker.openFd fd }

/-- A manager before its constructor's loop has run. -/
def empty (k : Kernel Interest) : Mgr := ⟨fun _ => Conn.create, 0, ∅, ∅, ∅, k⟩

/-- The constructor's loop as a machine; `socket` may return any fresh descriptor. -/
def builder : Machine Mgr BuildOutcome where
  step := buildConn
  ok m
    | .refused => True
    | .noMemory fd => m.ker.Fresh fd
    | .built fd => m.ker.Fresh fd

instance (m : Mgr) : (o : BuildOutcome) → Decidable (builder.ok m o)
  | .refused => inferInstanceAs (Decidable True)
  | .noMemory fd => inferInstanceAs (Decidable (m.ker.Fresh fd))
  | .built fd => inferInstanceAs (Decidable (m.ker.Fresh fd))

/-- `mgr::mgr` with `srv.m_conncnt` rounds. -/
def create (k : Kernel Interest) (os : List BuildOutcome) : Mgr := builder.run (empty k) os

/-! ## mgr.cpp -/

def getUsedConnCnt (m : Mgr) : Nat := m.used.size

def pickConn (cltfd : Int) (m : Mgr) : Option Nat × Mgr :=
  match m.conns.toList with
  | [] => (none, m)
  | (_, none) :: _ => (none, m)
  | (srvfd, some tmp) :: _ =>
    let m := { m with
      conns := m.conns.erase srvfd
      used := (m.used.insertIfNew cltfd (some tmp)).insertIfNew srvfd (some tmp) }
    (some tmp, (m.addReadFd cltfd).addReadFd srvfd)

/-- Assign to the object `c` points to. -/
def setConn (c : Nat) (conn : Conn) (m : Mgr) : Mgr :=
  { m with heap := Function.update m.heap c conn }

def freeConn (connection : Nat) (m : Mgr) : Mgr :=
  let cltfd := (m.heap connection).cltfd
  let srvfd := (m.heap connection).srvfd
  let m := (m.closefd cltfd).closefd srvfd
  let m := { m with used := (m.used.erase cltfd).erase srvfd }
  let m := m.setConn connection (m.heap connection).reset
  { m with freed := m.freed.insertIfNew srvfd connection }

/-- One round of the loop of `recycle_conns`; `none` is a `conn2srv` that failed. -/
def reconnect (tmp : Nat) (o : Option Int) (m : Mgr) : Mgr :=
  match o with
  | none => m
  | some srvfd =>
    let m := { m with ker := m.ker.openFd srvfd }
    let m := m.setConn tmp ((m.heap tmp).initSrv srvfd)
    { m with conns := m.conns.insertIfNew srvfd (some tmp) }

/-- The loop of `recycle_conns` over the entries of `m_freed`, in key order. -/
def recycleLoop : List (Int × Nat) → List (Option Int) → Mgr → Mgr
  | (_, tmp) :: es, o :: os, m => recycleLoop es os (m.reconnect tmp o)
  | _, _, m => m

def recycleConns (os : List (Option Int)) (m : Mgr) : Mgr :=
  if m.freed.isEmpty then m
  else { recycleLoop m.freed.toList os m with freed := ∅ }

/-- Store what a transfer left in `*connection` and let the kernel see its calls. -/
def transferred (c : Nat) (r : RetCode × Conn × List Call) (m : Mgr) : Mgr :=
  { m.setConn c r.2.1 with ker := m.ker.record r.2.2 }

/-- The client half of `process`: `fd` is `connection->m_cltfd`. -/
def processClt (fd : Int) (type : OpType) (io : Io) (c : Nat) (m : Mgr) : RetCode × Mgr :=
  let srvfd := (m.heap c).srvfd
  match type with
  | .read =>
    let r := (m.heap c).readClt io.recvs
    let m := m.transferred c r
    match r.1 with
    | .ioerr | .closed => (.closed, m.freeConn c)
    | res =>
      let m := match res with
        | .ok | .bufferFull => m.modfd srvfd epollout
        | _ => m
      if (m.heap c).srvClosed then (.closed, m.freeConn c) else (.ok, m)
  | .write =>
    let r := (m.heap c).writeClt io.sends
    let m := m.transferred c r
    match r.1 with
    | .ioerr | .closed => (.closed, m.freeConn c)
    | res =>
      let m := match res with
        | .tryAgain => m.modfd fd epollout
        | .bufferEmpty => (m.modfd srvfd epollin).modfd fd epollin
        | _ => m
      if (m.heap c).srvClosed then (.closed, m.freeConn c) else (.ok, m)
  | .error => (.ok, m)

/-- `connection->m_srv_closed = true`. -/
def markSrvClosed (c : Nat) (m : Mgr) : Mgr :=
  m.setConn c { m.heap c with srvClosed := true }

/-- The server half of `process`: `fd` is `connection->m_srvfd`. -/
def processSrv (fd : Int) (type : OpType) (io : Io) (c : Nat) (m : Mgr) : RetCode × Mgr :=
  let cltfd := (m.heap c).cltfd
  match type with
  | .read =>
    let r := (m.heap c).readSrv io.recvs
    let m := m.transferred c r
    match r.1 with
    | .ok | .bufferFull => (.ok, m.modfd cltfd epollout)
    | .ioerr | .closed => (.ok, (m.modfd cltfd epollout).markSrvClosed c)
    | _ => (.ok, m)
  | .write =>
    let r := (m.heap c).writeSrv io.sends
    let m := m.transferred c r
    match r.1 with
    | .tryAgain => (.ok, m.modfd fd epollout)
    | .bufferEmpty => (.ok, (m.modfd cltfd epollin).modfd fd epollin)
    | .ioerr | .closed => (.ok, (m.modfd cltfd epollout).markSrvClosed c)
    | _ => (.ok, m)
  | .error => (.ok, m)

/-- `m_used[ fd ]`: a missing key is inserted with NULL. -/
def usedAt (fd : Int) (m : Mgr) : Option Nat × Mgr :=
  ((m.used[fd]?).join, { m with used := m.used.insertIfNew fd none })

def process (fd : Int) (type : OpType) (io : Io) (m : Mgr) : RetCode × Mgr :=
  match m.usedAt fd with
  | (none, m) => (.nothing, m)
  | (some connection, m) =>
    if (m.heap connection).cltfd = fd then m.processClt fd type io connection
    else if (m.heap connection).srvfd = fd then m.processSrv fd type io connection
    else (.nothing, m)

end Mgr
end Springsnail
end Unpvol1
