import Mathlib.Algebra.Group.Int.Defs
import Mathlib.Algebra.Group.Nat.Defs
import Unpvol1.Http.Head

/-!
# Http.HttpConn

`http_conn` of `15-4http_conn.h` and `15-5http_conn.cpp`: reading a request. What is printed, the
socket and the write side are left out.

* `Members` — the members that reading a request uses; `init` — the connection after `init()`.
* `parseRequestLine`, `parseHeaders`, `parseContent` — one piece of text in each check state.
* `parseRead` — the loop of `process_read`, up to a result or to `do_request`.
* `doRequest` — the file lookup, in a file system `FileSystem`.
* `processRead` — both; `none` is undefined behaviour: an `int` overflow, an index outside
  `m_read_buf`, or a null `m_url`.
* `serve` — `process_read` after each chunk, until it decides.
-/

namespace Unpvol1.HttpConn

open Http

def readBufferSize : Nat := 2048

def filenameLen : Nat := 200

/-- `"/var/www/html"` -/
def docRoot : List UInt8 := [47, 118, 97, 114, 47, 119, 119, 119, 47, 104, 116, 109, 108]

/-- `"Connection:"` -/
def connectionText : List UInt8 := [67, 111, 110, 110, 101, 99, 116, 105, 111, 110, 58]

/-- `"keep-alive"` -/
def keepAliveText : List UInt8 := [107, 101, 101, 112, 45, 97, 108, 105, 118, 101]

/-- `"Content-Length:"` -/
def contentLengthText : List UInt8 :=
  [67, 111, 110, 116, 101, 110, 116, 45, 76, 101, 110, 103, 116, 104, 58]

/-- `"Host:"` -/
def hostText : List UInt8 := [72, 111, 115, 116, 58]

inductive Method where
  | get | post | head | put | delete | trace | options | connect | patch
  deriving DecidableEq, Repr

inductive HttpCode where
  | noRequest
  | getRequest
  | badRequest
  | noResource
  | forbiddenRequest
  | fileRequest
  | internalError
  | closedConnection
  deriving DecidableEq, Repr

/-- What is looked at in a `struct stat`. -/
structure FileStat where
  otherRead : Bool
  isDir : Bool
  size : Nat
  deriving DecidableEq, Repr

/-- `stat` on a path, `none` when it fails; and the address at which `mmap` puts the file. -/
structure FileSystem where
  stat : List UInt8 → Option FileStat
  mmap : List UInt8 → Nat

structure Members where
  checkState : CheckState
  method : Method
  realFile : List UInt8
  url : Option Nat
  version : Option Nat
  host : Option Nat
  contentLength : Int
  linger : Bool
  fileAddress : Option Nat
  fileStat : Option FileStat
  deriving DecidableEq, Repr

/-- A connection: the read buffer with its indices, and the other members. -/
abbrev Conn := Parser Members

/-- `init()`, which leaves `m_file_address` and `m_file_stat` as they are. -/
def init (m : Members) : Conn :=
  { line := LineBuf.cleared readBufferSize
    state := { m with
      checkState := .requestLine, linger := false, method := .get, url := none, version := none,
      contentLength := 0, host := none, realFile := List.replicate filenameLen 0 } }

/-- A new object, before `init()`. -/
def Members.blank : Members :=
  { checkState := .requestLine, method := .get, realFile := [], url := none, version := none,
    host := none, contentLength := 0, linger := false, fileAddress := none, fileStat := none }

/-! ## One piece of text -/

def parseRequestLine (buf : List UInt8) (text : Nat) (m : Members) :
    HttpCode × List UInt8 × Members :=
  let line := Http.parseRequestLine buf text m.version
  let m := { m with
    url := line.url, version := line.version, method := if line.isGet then .get else m.method }
  if line.valid then (.noRequest, line.readBuf, { m with checkState := .header })
  else (.badRequest, line.readBuf, m)

/-- The `int` that a `long` becomes. -/
def toInt32 (n : Int) : Int := n.bmod (2 ^ 32)

def parseHeaders (buf : List UInt8) (text : Nat) (m : Members) : HttpCode × Members :=
  if buf.getD text 0 = 0 then
    if m.method = .head then (.getRequest, m)
    else if m.contentLength ≠ 0 then (.noRequest, { m with checkState := .content })
    else (.getRequest, m)
  else if strncaseeq buf text connectionText then
    let text := text + connectionText.length
    let text := text + strspn buf text blanks
    (.noRequest, { m with linger := strcaseeq buf text keepAliveText || m.linger })
  else if strncaseeq buf text contentLengthText then
    let text := text + contentLengthText.length
    let text := text + strspn buf text blanks
    (.noRequest, { m with contentLength := toInt32 (atol (cstr buf text)) })
  else if strncaseeq buf text hostText then
    let text := text + hostText.length
    let text := text + strspn buf text blanks
    (.noRequest, { m with host := some text })
  else (.noRequest, m)

/-- `m_content_length + m_checked_idx` must not overflow, and `text[ m_content_length ]` must be a
byte of the buffer. -/
def parseContent (b : LineBuf) (text : Nat) (m : Members) : Option (HttpCode × List UInt8) :=
  if 2 ^ 31 ≤ m.contentLength + b.checkedIdx then none
  else if m.contentLength + b.checkedIdx ≤ b.readIdx then
    let i := text + m.contentLength
    if 0 ≤ i ∧ i < b.readBuf.length then some (.getRequest, b.readBuf.set i.toNat 0) else none
  else some (.noRequest, b.readBuf)

/-! ## The loop -/

/-- How the loop of `process_read` is left. -/
inductive Outcome where
  | code (c : HttpCode)
  | doRequest
  | undefined
  deriving DecidableEq, Repr

/-- The condition of the `while`: `line_status`, and the buffer after `parse_line` if that is
called. -/
def nextText (lineStatus : LineStatus) (p : Conn) : LineStatus × LineBuf :=
  if p.state.checkState = .content ∧ lineStatus = .lineOk then (.lineOk, p.line)
  else p.line.parseLine

/-- One pass: `text = get_line(); m_start_line = m_checked_idx;` and the `switch`. The outcome if
the loop is left here, or the line status it goes on with. -/
def takeText (b : LineBuf) (m : Members) : Option Outcome × LineStatus × Conn :=
  let text := b.startLine
  let b := { b with startLine := b.checkedIdx }
  match m.checkState with
  | .requestLine =>
    let (ret, buf, m) := parseRequestLine b.readBuf text m
    (if ret = .badRequest then some (.code .badRequest) else none, .lineOk,
      { line := { b with readBuf := buf }, state := m })
  | .header =>
    let (ret, m) := parseHeaders b.readBuf text m
    (if ret = .badRequest then some (.code .badRequest)
      else if ret = .getRequest then some .doRequest else none, .lineOk, { line := b, state := m })
  | .content =>
    match parseContent b text m with
    | none => (some .undefined, .lineOk, { line := b, state := m })
    | some (ret, buf) =>
      (if ret = .getRequest then some .doRequest else none, .lineOpen,
        { line := { b with readBuf := buf }, state := m })

/-- The `while` loop of `process_read`. -/
def parseReadLoop : Nat → LineStatus → Conn → Outcome × Conn
  | 0, _, p => (.code .noRequest, p)
  | fuel + 1, lineStatus, p =>
    match nextText lineStatus p with
    | (.lineOk, b) =>
      match takeText b p.state with
      | (some out, _, p) => (out, p)
      | (none, lineStatus, p) => parseReadLoop fuel lineStatus p
    | (_, b) => (.code .noRequest, { p with line := b })

/-- All passes but the first in `CHECK_STATE_CONTENT` take a line, so the counter does not run
out. -/
def parseRead (p : Conn) : Outcome × Conn := parseReadLoop (p.line.readIdx + 2) .lineOk p

/-! ## The request -/

/-- `strcpy` of the document root, and the URL behind it as far as `m_real_file` holds it. -/
def realFile (old url : List UInt8) : List UInt8 :=
  strncpy (overwrite old 0 (docRoot ++ [0])) docRoot.length url
    (filenameLen - docRoot.length - 1)

def doRequest (fs : FileSystem) (p : Conn) : Option (HttpCode × Conn) :=
  match p.state.url with
  | none => none
  | some url =>
    let m := { p.state with realFile := realFile p.state.realFile (cstr p.line.readBuf url) }
    let path := cstr m.realFile 0
    match fs.stat path with
    | none => some (.noResource, { p with state := m })
    | some st =>
      let m := { m with fileStat := some st }
      if ¬ st.otherRead then some (.forbiddenRequest, { p with state := m })
      else if st.isDir then some (.badRequest, { p with state := m })
      else some (.fileRequest, { p with state := { m with fileAddress := some (fs.mmap path) } })

/-- What `process_read` returns when its loop is left. -/
def finish (fs : FileSystem) : Outcome × Conn → Option (HttpCode × Conn)
  | (.code c, p) => some (c, p)
  | (.doRequest, p) => doRequest fs p
  | (.undefined, _) => none

def processRead (fs : FileSystem) (p : Conn) : Option (HttpCode × Conn) := finish fs (parseRead p)

/-- `process_read` after each chunk, until it returns something other than `NO_REQUEST`. -/
def serve (fs : FileSystem) (p : Conn) : List (List UInt8) → Option (HttpCode × Conn)
  | [] => some (.noRequest, p)
  | chunk :: chunks =>
    match processRead fs (p.receive chunk) with
    | some (.noRequest, p) => serve fs p chunks
    | decided => decided

end Unpvol1.HttpConn
