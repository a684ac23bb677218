import Unpvol1.Lib.Relay
import Unpvol1.Lib.Socket

/-!
# Springsnail.Conn

The connection object of the springsnail proxy (`conn.h`, `conn.cpp`): a client descriptor, a
server descriptor and a buffer for each direction. `m_clt_buf` holds what was read from the client
and goes to the server, `m_srv_buf` the other way.

The four transfer loops differ only in the descriptor and the buffer they work on, so they are two
loops (`readLoop`, `writeLoop`) applied to each member's own fields. Every loop also returns the
calls it made. The addresses `m_clt_address` and `m_srv_address` are not read by any of this and
are left out.
-/

namespace Unpvol1
namespace Springsnail

/-- `RET_CODE` of `fdwrapper.h`. -/
inductive RetCode where
  | ok
  | nothing
  | ioerr
  | closed
  | bufferFull
  | bufferEmpty
  | tryAgain
  deriving DecidableEq, Repr

def bufSize : Nat := 2048

structure Conn where
  cltBuf : List UInt8
  cltReadIdx : Nat
  cltWriteIdx : Nat
  cltfd : Int
  srvBuf : List UInt8
  srvReadIdx : Nat
  srvWriteIdx : Nat
  srvfd : Int
  srvClosed : Bool
  deriving DecidableEq, Repr

namespace Conn

def reset (c : Conn) : Conn :=
  { c with
    cltReadIdx := 0, cltWriteIdx := 0, srvReadIdx := 0, srvWriteIdx := 0
    srvClosed := false, cltfd := -1
    cltBuf := List.replicate bufSize 0, srvBuf := List.replicate bufSize 0 }

def initClt (sockfd : Int) (c : Conn) : Conn := { c with cltfd := sockfd }

def initSrv (sockfd : Int) (c : Conn) : Conn := { c with srvfd := sockfd }

/-- The constructor `conn::conn`. What `new char[]` leaves in the buffers is overwritten by
`reset`. -/
def create : Conn :=
  reset { cltBuf := [], cltReadIdx := 0, cltWriteIdx := 0, cltfd := -1,
          srvBuf := [], srvReadIdx := 0, srvWriteIdx := 0, srvfd := -1, srvClosed := false }

end Conn

/-- What a read loop leaves behind. -/
structure Fill where
  code : RetCode
  buf : List UInt8
  readIdx : Nat
  calls : List Call

/-- The code a read loop returns on `EAGAIN`. -/
def pendingCode (readIdx writeIdx : Nat) : RetCode :=
  if 0 < readIdx - writeIdx then .ok else .nothing

/-- The loop of `read_clt` and `read_srv`: `recv` on `fd` into the rest of the buffer until it is
full, the socket has nothing more, or it is closed or in error. -/
def readLoop (fd : Int) (writeIdx : Nat) : List RecvOutcome → List UInt8 → Nat → Fill
  | [], buf, readIdx =>
    if bufSize ≤ readIdx then ⟨.bufferFull, buf, readIdx, []⟩
    else ⟨pendingCode readIdx writeIdx, buf, readIdx,
      [.recv fd (bufSize - readIdx) (.err .again)]⟩
  | o :: os, buf, readIdx =>
    if bufSize ≤ readIdx then ⟨.bufferFull, buf, readIdx, []⟩
    else
      let call := Call.recv fd (bufSize - readIdx) (recv (bufSize - readIdx) o)
      match recv (bufSize - readIdx) o with
      | .err .again => ⟨pendingCode readIdx writeIdx, buf, readIdx, [call]⟩
      | .err _ => ⟨.ioerr, buf, readIdx, [call]⟩
      | .got [] => ⟨.closed, buf, readIdx, [call]⟩
      | .got (b :: bs) =>
        let rest := readLoop fd writeIdx os (blit buf readIdx (b :: bs))
          (readIdx + (b :: bs).length)
        { rest with calls := call :: rest.calls }

/-- What a write loop leaves behind. -/
structure Drain where
  code : RetCode
  readIdx : Nat
  writeIdx : Nat
  calls : List Call

/-- The loop of `write_srv` and `write_clt`: `send` the slice on `fd` until it is empty, the
socket takes no more, or it is closed or in error. -/
def writeLoop (fd : Int) (buf : List UInt8) : List SendOutcome → Nat → Nat → Drain
  | [], readIdx, writeIdx =>
    if readIdx ≤ writeIdx then ⟨.bufferEmpty, 0, 0, []⟩
    else ⟨.tryAgain, readIdx, writeIdx, [.send fd (slice buf writeIdx readIdx) (.err .again)]⟩
  | o :: os, readIdx, writeIdx =>
    if readIdx ≤ writeIdx then ⟨.bufferEmpty, 0, 0, []⟩
    else
      let call := Call.send fd (slice buf writeIdx readIdx) (send (readIdx - writeIdx) o)
      match send (readIdx - writeIdx) o with
      | .err .again => ⟨.tryAgain, readIdx, writeIdx, [call]⟩
      | .err _ => ⟨.ioerr, readIdx, writeIdx, [call]⟩
      | .took 0 => ⟨.closed, readIdx, writeIdx, [call]⟩
      | .took (n + 1) =>
        let rest := writeLoop fd buf os readIdx (writeIdx + (n + 1))
        { rest with calls := call :: rest.calls }

namespace Conn

def readClt (os : List RecvOutcome) (c : Conn) : RetCode × Conn × List Call :=
  let f := readLoop c.cltfd c.cltWriteIdx os c.cltBuf c.cltReadIdx
  (f.code, { c with cltBuf := f.buf, cltReadIdx := f.readIdx }, f.calls)

def readSrv (os : List RecvOutcome) (c : Conn) : RetCode × Conn × List Call :=
  let f := readLoop c.srvfd c.srvWriteIdx os c.srvBuf c.srvReadIdx
  (f.code, { c with srvBuf := f.buf, srvReadIdx := f.readIdx }, f.calls)

def writeSrv (os : List SendOutcome) (c : Conn) : RetCode × Conn × List Call :=
  let d := writeLoop c.srvfd c.cltBuf os c.cltReadIdx c.cltWriteIdx
  (d.code, { c with cltReadIdx := d.readIdx, cltWriteIdx := d.writeIdx }, d.calls)

def writeClt (os : List SendOutcome) (c : Conn) : RetCode × Conn × List Call :=
  let d := writeLoop c.cltfd c.srvBuf os c.srvReadIdx c.srvWriteIdx
  (d.code, { c with srvReadIdx := d.readIdx, srvWriteIdx := d.writeIdx }, d.calls)

end Conn
end Springsnail
end Unpvol1
