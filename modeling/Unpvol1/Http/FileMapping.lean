import Unpvol1.Http.HttpConnPath
import Unpvol1.Http.MainLoop

/-!
# Http.FileMapping

The file mapping of an `http_conn` slot over its whole life: connections that use the slot one after
the other, their requests and responses, and closes. What `mmap` and `munmap` are called with is
logged, with a mark where `process_read` comes to a result.

* `Slot` — the read side of `HttpConn`, the write side of `HttpConnWrite`, and the log.
* `accept`, `read`, `process`, `write`, `closeConn` — the calls `main` and a worker make.
* `machine` — the calls in the order the registered event allows, and closes at any time.
* `Paired` — a log in which each mapping is undone, as it is, before the next request.
* `always_paired` — so it is as long as no mapping fails and no connection is closed with a file
  mapped.
-/

namespace Unpvol1
namespace FileMapping

open HttpConn (Conn FileSystem HttpCode FileStat)
open HttpConnWrite (Base WriteSide WriteEnd Writev writeBufferSize)
open MainLoop (Ready)

/-- `MAP_FAILED`, which is `( void* )-1` and not null. -/
def mapFailed : Nat := 2 ^ 64 - 1

inductive Call where
  | request
  | mmap (addr length : Nat)
  | munmap (addr length : Nat)
  deriving DecidableEq, Repr

/-- An `http_conn` of `users`. `armed` is the event its descriptor is registered for. -/
structure Slot where
  sockfd : Int
  armed : Ready
  conn : Conn
  writeBuf : List UInt8
  writeIdx : Nat
  iv : List (Base × Nat)
  log : List Call

namespace Slot

def fileAddress (s : Slot) : Option Nat := s.conn.state.fileAddress

/-- `m_file_stat.st_size` -/
def fileSize (s : Slot) : Nat := (s.conn.state.fileStat.map FileStat.size).getD 0

/-- The members the write side uses; `mem` is what is in memory from an address on. -/
def side (mem : Nat → List UInt8) (s : Slot) : WriteSide where
  writeBuf := s.writeBuf
  writeIdx := s.writeIdx
  linger := s.conn.state.linger
  fileAddress := s.fileAddress.map mem
  fileSize := s.fileSize
  iv := s.iv

/-- The same members after the write side has used them, but for `m_file_address`. -/
def takeSide (s : Slot) (c : WriteSide) : Slot :=
  { s with
    writeBuf := c.writeBuf, writeIdx := c.writeIdx, iv := c.iv
    conn := { s.conn with state := { s.conn.state with linger := c.linger } } }

/-- `init()` -/
def init (s : Slot) : Slot :=
  { s with
    conn := HttpConn.init s.conn.state
    writeBuf := List.replicate writeBufferSize 0, writeIdx := 0 }

/-- `init( sockfd, addr )` -/
def accept (sockfd : Int) (s : Slot) : Slot :=
  { s with sockfd := sockfd, armed := .epollin }.init

def closeConn (s : Slot) : Slot := if s.sockfd ≠ -1 then { s with sockfd := -1 } else s

def unmap (s : Slot) : Slot :=
  match s.fileAddress with
  | none => s
  | some addr =>
    { s with
      conn := { s.conn with state := { s.conn.state with fileAddress := none } }
      log := s.log ++ [.munmap addr s.fileSize] }

/-- What `read` puts into the buffer. -/
def read (s : Slot) (chunk : List UInt8) : Slot := { s with conn := s.conn.receive chunk }

/-- The successful `mmap` of `process_read`, if there was one. -/
def mapped (ret : HttpCode) (s : Slot) : List Call :=
  match s.fileAddress with
  | some addr => if ret = .fileRequest ∧ addr ≠ mapFailed then [.mmap addr s.fileSize] else []
  | none => []

/-- `process()`; the `mmap` of `fs` is `MAP_FAILED` where it fails. -/
def process (mem : Nat → List UInt8) (fs : FileSystem) (s : Slot) : Option Slot :=
  match HttpConn.processRead fs s.conn with
  | none => none
  | some (ret, conn) =>
    let s : Slot := { s with conn := conn }
    if ret = .noRequest then some { s with armed := .epollin }
    else
      let s : Slot := { s with log := s.log ++ .request :: s.mapped ret, armed := .epollout }
      let (c, writeRet) := HttpConnWrite.processWrite (s.side mem) ret
      some (if writeRet then s.takeSide c else (s.takeSide c).closeConn)

/-- `write()`, and `close_conn()` in `main` when it returns false. -/
def write (mem : Nat → List UInt8) (outcomes : List Writev) (s : Slot) : Option Slot :=
  match HttpConnWrite.write (s.side mem) outcomes with
  | none => none
  | some (ended, c, _) =>
    let s := s.takeSide c
    some (match ended with
      | .nothing => { s.init with armed := .epollin }
      | .again => { s with armed := .epollout }
      | .error => s.unmap.closeConn
      | .kept => { s.unmap.init with armed := .epollin }
      | .closing => { s.unmap with armed := .epollin }.closeConn)

end Slot

inductive Step where
  | accept (sockfd : Int)
  | read (chunk : List UInt8)
  | process (fs : FileSystem)
  | write (outcomes : List Writev)
  /-- The peer hangs up, or `read` fails. -/
  | close

variable (mem : Nat → List UInt8)

def step (s : Slot) : Step → Slot
  | .accept sockfd => s.accept sockfd
  | .read chunk => s.read chunk
  | .process fs => (s.process mem fs).getD s
  | .write outcomes => (s.write mem outcomes).getD s
  | .close => s.closeConn

/-- A descriptor is accepted while it is not open, and a connection is read from or written to as
its registered event says. `mmap` of no bytes fails. -/
def enabled (s : Slot) : Step → Prop
  | .accept sockfd => s.sockfd = -1 ∧ 0 ≤ sockfd
  | .read chunk => s.sockfd ≠ -1 ∧ s.armed = .epollin ∧
      s.conn.line.readIdx + chunk.length ≤ HttpConn.readBufferSize
  | .process fs => s.sockfd ≠ -1 ∧ s.armed = .epollin ∧ s.process mem fs ≠ none ∧
      ∀ path st, fs.stat path = some st → st.size = 0 → fs.mmap path = mapFailed
  | .write outcomes => s.sockfd ≠ -1 ∧ s.armed = .epollout ∧ s.write mem outcomes ≠ none
  | .close => True

def machine : Machine Slot Step where
  step := step mem
  ok := enabled mem

/-- A new object; only `m_file_address` needs a value. -/
def start (s : Slot) : Slot :=
  { s with
    sockfd := -1
    conn := { s.conn with state := { s.conn.state with fileAddress := none } }
    log := [] }

/-! ## Pairing -/

/-- A call, with the mapping that is there before it; `none` if the call does not fit. -/
def settle (held : Option (Nat × Nat)) : Call → Option (Option (Nat × Nat))
  | .request => if held = none then some none else none
  | .mmap addr length => if held = none then some (some (addr, length)) else none
  | .munmap addr length => if held = some (addr, length) then some none else none

/-- What is mapped after the calls, if each `munmap` undoes a mapping as it is and nothing is mapped
when a request comes. -/
def settled (log : List Call) : Option (Option (Nat × Nat)) := log.foldlM settle none

def Paired (s : Slot) : Prop := (settled s.log).isSome = true

instance (s : Slot) : Decidable (Paired s) := inferInstanceAs (Decidable (_ = true))

theorem settled_append (log : List Call) (c : Call) :
    settled (log ++ [c]) = (settled log).bind fun held => settle held c := by
  rw [settled, List.foldlM_append]
  cases h : settled log with
  | none =>
    rw [settled] at h
    rw [h]
    rfl
  | some held =>
    rw [settled] at h
    rw [h]
    show ((settle held c).bind fun x => some x) = settle held c
    cases settle held c with
    | none => rfl
    | some x => rfl

/-! ## What the calls do to the mapping -/

section ReadSide

variable {fs : FileSystem} {p q : Conn} {ret : HttpCode}

/-- The members that `do_request` sets when it maps a file. -/
def mapping (p : Conn) : Option Nat × Option FileStat := (p.state.fileAddress, p.state.fileStat)

theorem takeText_mapping (b : Http.LineBuf) (m : HttpConn.Members) :
    mapping (HttpConn.takeText b m).2.2 = (m.fileAddress, m.fileStat) := by
  unfold HttpConn.takeText
  simp only []
  split
  · unfold HttpConn.parseRequestLine
    simp only []
    split
    · rfl
    · rfl
  · unfold HttpConn.parseHeaders
    simp only []
    repeat' split
    all_goals rfl
  · split
    · rfl
    · rfl

/-- By induction on the passes. -/
theorem parseReadLoop_mapping (fuel : Nat) (lineStatus : Http.LineStatus) (p : Conn) :
    mapping (HttpConn.parseReadLoop fuel lineStatus p).2 = mapping p := by
  induction fuel generalizing lineStatus p with
  | zero => rfl
  | succ fuel ih =>
    unfold HttpConn.parseReadLoop
    split
    · rename_i b _
      have htake := takeText_mapping b p.state
      generalize HttpConn.takeText b p.state = r at htake
      obtain ⟨_ | out, lineStatus', q⟩ := r
      · exact (ih lineStatus' q).trans htake
      · exact htake
    · rfl

/-- A file that is looked up to be mapped, and is not. -/
def MapFails (fs : FileSystem) (p : Conn) : Prop :=
  ∃ q path st, HttpConn.parseRead p = (.doRequest, q) ∧ HttpConn.lookedUp q = some path ∧
    fs.stat path = some st ∧ st.otherRead = true ∧ st.isDir = false ∧ fs.mmap path = mapFailed

/-- `do_request` maps a file, or leaves the address. -/
theorem doRequest_mapping (h : HttpConn.doRequest fs p = some (ret, q)) :
    (ret ≠ .fileRequest ∧ q.state.fileAddress = p.state.fileAddress) ∨
    ∃ path st, ret = .fileRequest ∧ HttpConn.lookedUp p = some path ∧ fs.stat path = some st ∧
      st.otherRead = true ∧ st.isDir = false ∧ mapping q = (some (fs.mmap path), some st) := by
  cases hu : p.state.url with
  | none =>
    simp only [HttpConn.doRequest, hu] at h
    cases h
  | some u =>
    simp only [HttpConn.doRequest, hu] at h
    have hlook : HttpConn.lookedUp p = some (cstr (HttpConn.realFile p.state.realFile
        (cstr p.line.readBuf u)) 0) := by
      simp only [HttpConn.lookedUp, HttpConn.urlString, hu, Option.map_some]
    split at h
    · cases h
      exact .inl ⟨by simp, rfl⟩
    · rename_i st hst
      split at h
      · cases h
        exact .inl ⟨by simp, rfl⟩
      · rename_i hread
        split at h
        · cases h
          exact .inl ⟨by simp, rfl⟩
        · rename_i hdir
          cases h
          exact .inr ⟨_, st, rfl, hlook, hst, of_not_not hread, (Bool.not_eq_true _).mp hdir,
            rfl⟩

/-- `process_read` maps a file, or leaves the address. -/
theorem processRead_mapping (h : HttpConn.processRead fs p = some (ret, q)) :
    (ret ≠ .fileRequest ∧ q.state.fileAddress = p.state.fileAddress) ∨
    ∃ addr st, ret = .fileRequest ∧ mapping q = (some addr, some st) ∧
      (addr = mapFailed → MapFails fs p) ∧
      ((∀ path st, fs.stat path = some st → st.size = 0 → fs.mmap path = mapFailed) →
        st.size = 0 → addr = mapFailed) := by
  have hmap := parseReadLoop_mapping (p.line.readIdx + 2) .lineOk p
  have hout := HttpConn.parseReadLoop_outcome (p.line.readIdx + 2) .lineOk p
  have hfails : ∀ r, HttpConn.parseRead p = (.doRequest, r) → ∀ path st,
      HttpConn.lookedUp r = some path → fs.stat path = some st → st.otherRead = true →
      st.isDir = false → fs.mmap path = mapFailed → MapFails fs p :=
    fun r hr path st h1 h2 h3 h4 h5 => ⟨r, path, st, hr, h1, h2, h3, h4, h5⟩
  have h : HttpConn.finish fs (HttpConn.parseReadLoop (p.line.readIdx + 2) .lineOk p) =
    some (ret, q) := h
  have hread : HttpConn.parseRead p = HttpConn.parseReadLoop (p.line.readIdx + 2) .lineOk p := rfl
  rw [hread] at hfails
  generalize HttpConn.parseReadLoop (p.line.readIdx + 2) .lineOk p = r at h hout hmap hfails
  obtain ⟨out, r⟩ := r
  have haddr : r.state.fileAddress = p.state.fileAddress := congrArg Prod.fst hmap
  rcases hout with rfl | rfl | rfl | rfl
  · cases h
    exact .inl ⟨nofun, haddr⟩
  · cases h
    exact .inl ⟨nofun, haddr⟩
  · rcases doRequest_mapping h with ⟨hret, ha⟩ | ⟨path, st, hret, hlook, hst, hr, hd, hq⟩
    · exact .inl ⟨hret, ha.trans haddr⟩
    · exact .inr ⟨_, st, hret, hq, fun hf => hfails r rfl path st hlook hst hr hd hf,
        fun hz => hz path st hst⟩
  · cases h

end ReadSide

section WriteSide

variable {c c' : WriteSide}

theorem addResponse_idx (c : WriteSide) (text : List UInt8) :
    c.writeIdx ≤ (HttpConnWrite.addResponse c text).1.writeIdx ∧
      (HttpConnWrite.addResponse c text).1.fileSize = c.fileSize := by
  unfold HttpConnWrite.addResponse
  split
  · exact ⟨Nat.le_refl _, rfl⟩
  · simp only []
    split
    · exact ⟨Nat.le_refl _, rfl⟩
    · exact ⟨Nat.le_add_right _ _, rfl⟩

theorem addHeaders_idx (c : WriteSide) (contentLen : Int) :
    c.writeIdx ≤ (HttpConnWrite.addHeaders c contentLen).writeIdx := by
  have h₁ : c.writeIdx ≤ (HttpConnWrite.addContentLength c contentLen).1.writeIdx :=
    (addResponse_idx c _).1
  have h₂ : _ ≤
      (HttpConnWrite.addLinger (HttpConnWrite.addContentLength c contentLen).1).1.writeIdx :=
    (addResponse_idx (HttpConnWrite.addContentLength c contentLen).1 _).1
  exact (h₁.trans h₂).trans (addResponse_idx _ _).1

theorem statusLine_idx (c : WriteSide) :
    (HttpConnWrite.addStatusLine c 200 HttpConnWrite.ok200Title).1.writeIdx ≠ 0 := by
  by_cases hz : c.writeIdx = 0
  · have hlen : (HttpConnWrite.versionText ++ HttpConnWrite.decimal 200 ++ [32] ++
        HttpConnWrite.ok200Title ++ HttpConnWrite.endOfLine).length = 17 := by decide
    have hadd : (HttpConnWrite.addStatusLine c 200 HttpConnWrite.ok200Title).1.writeIdx = 17 := by
      simp only [HttpConnWrite.addStatusLine, HttpConnWrite.addResponse, hlen, hz]
      rfl
    rw [hadd]
    decide
  · have hle := (addResponse_idx c (HttpConnWrite.versionText ++ HttpConnWrite.decimal 200 ++
      [32] ++ HttpConnWrite.ok200Title ++ HttpConnWrite.endOfLine)).1
    exact fun h => hz (Nat.le_zero.mp (h ▸ hle))

/-- The response of a mapped file is there to be sent, and something of it is in the buffer. -/
theorem processWrite_file (hsize : c.fileSize ≠ 0) :
    (HttpConnWrite.processWrite c .fileRequest).2 = true ∧
      (HttpConnWrite.processWrite c .fileRequest).1.writeIdx ≠ 0 := by
  have hidx := statusLine_idx c
  have hkeep : (HttpConnWrite.addStatusLine c 200 HttpConnWrite.ok200Title).1.fileSize ≠ 0 := by
    rw [show (HttpConnWrite.addStatusLine c 200 HttpConnWrite.ok200Title).1.fileSize = c.fileSize
      from (addResponse_idx c _).2]
    exact hsize
  simp only [HttpConnWrite.processWrite, if_pos hkeep]
  refine ⟨trivial, fun h => hidx ?_⟩
  exact Nat.le_zero.mp (h ▸ addHeaders_idx _ _)

/-- A call of `write` on a response never ends with nothing to send, and leaves it as it was when
the socket is full. -/
theorem writeLoop_ended {n k : Int} {outcomes : List Writev} {ended : WriteEnd}
    {sent : List UInt8} (h : HttpConnWrite.writeLoop c n k outcomes = some (ended, c', sent)) :
    ended ≠ .nothing ∧ (ended = .again → c' = c) := by
  induction outcomes generalizing n k sent with
  | nil => cases h
  | cons o outcomes ih =>
    cases o with
    | again =>
      cases h
      exact ⟨by simp, fun _ => rfl⟩
    | fail =>
      cases h
      exact ⟨by simp, by simp⟩
    | took m =>
      simp only [HttpConnWrite.writeLoop] at h
      split at h
      · split at h
        · cases h
          exact ⟨by simp, by simp⟩
        · cases h
          exact ⟨by simp, by simp⟩
      · obtain ⟨⟨e, c₁, rest⟩, hrest, hsame⟩ := Option.bind_eq_some_iff.mp h
        cases hsame
        exact ih hrest

end WriteSide

/-! ## Runs -/

/-- No file that is looked up fails to be mapped, and no connection is closed with a file mapped. -/
def Careful (s : Slot) : Step → Prop
  | .process fs => ¬ MapFails fs s.conn
  | .close => s.fileAddress = none
  | _ => True

/-- What is mapped is what the slot knows of, and there is a response for it to be sent. -/
structure Inv (s : Slot) : Prop where
  settled : settled s.log = some (s.fileAddress.map fun addr => (addr, s.fileSize))
  pending : s.fileAddress ≠ none → s.sockfd ≠ -1 ∧ s.armed = .epollout ∧ s.writeIdx ≠ 0

section Steps

variable {s : Slot}

theorem Inv.of_none (hlog : FileMapping.settled s.log = some none) (ha : s.fileAddress = none) :
    Inv s where
  settled := by
    rw [hlog, ha]
    rfl
  pending := fun h => absurd ha h

theorem Inv.settled_none (h : Inv s) (ha : s.fileAddress = none) :
    FileMapping.settled s.log = some none := by
  rw [h.settled, ha]
  rfl

theorem start_inv (s : Slot) : Inv (start s) := .of_none rfl rfl

theorem closeConn_log (s : Slot) :
    s.closeConn.log = s.log ∧ s.closeConn.fileAddress = s.fileAddress := by
  unfold Slot.closeConn
  split
  · exact ⟨rfl, rfl⟩
  · exact ⟨rfl, rfl⟩

theorem Inv.closeConn (h : Inv s) (ha : s.fileAddress = none) : Inv s.closeConn := by
  obtain ⟨hlog, haddr⟩ := closeConn_log s
  exact .of_none (by rw [hlog]; exact h.settled_none ha) (by rw [haddr]; exact ha)

/-- `unmap` undoes the mapping as it is. -/
theorem Inv.unmap (hlog : FileMapping.settled s.log =
    some (s.fileAddress.map fun addr => (addr, s.fileSize))) :
    Inv s.unmap ∧ s.unmap.fileAddress = none := by
  cases ha : s.fileAddress with
  | none =>
    have hsame : s.unmap = s := by simp only [Slot.unmap, ha]
    rw [ha] at hlog
    rw [hsame]
    exact ⟨.of_none hlog ha, ha⟩
  | some addr =>
    rw [ha] at hlog
    have hnone : s.unmap.fileAddress = none := by
      simp only [Slot.unmap, ha]
      rfl
    have hnew : s.unmap.log = s.log ++ [.munmap addr s.fileSize] := by
      simp only [Slot.unmap, ha]
    refine ⟨.of_none ?_ hnone, hnone⟩
    rw [hnew, settled_append, hlog]
    exact if_pos rfl

variable {s' : Slot} {fs : FileSystem}

/-- A call of `process` on a connection without a mapping. -/
theorem Inv.process (h : Inv s) (ha : s.fileAddress = none) (hopen : s.sockfd ≠ -1)
    (hzero : ∀ path st, fs.stat path = some st → st.size = 0 → fs.mmap path = mapFailed)
    (hmaps : ¬ MapFails fs s.conn) (hp : s.process mem fs = some s') : Inv s' := by
  have hlog := h.settled_none ha
  unfold Slot.process at hp
  cases hread : HttpConn.processRead fs s.conn with
  | none =>
    rw [hread] at hp
    cases hp
  | some r =>
    obtain ⟨ret, conn⟩ := r
    rw [hread] at hp
    simp only [] at hp
    have hrequest : FileMapping.settled (s.log ++ [.request]) = some none := by
      rw [settled_append, hlog]
      rfl
    rcases processRead_mapping hread with ⟨hret, haddr⟩ | ⟨addr, st, rfl, hmap, hfail, hsize⟩
    · have hnone : conn.state.fileAddress = none := haddr.trans ha
      have hmapped : Slot.mapped ret { s with conn := conn } = [] := by
        simp only [Slot.mapped, Slot.fileAddress, hnone]
      rw [hmapped] at hp
      split at hp
      · cases hp
        exact .of_none hlog hnone
      · split at hp
        · cases hp
          exact .of_none hrequest hnone
        · cases hp
          exact Inv.closeConn (.of_none hrequest hnone) hnone
    · have haddr : conn.state.fileAddress = some addr := congrArg Prod.fst hmap
      have hstat : conn.state.fileStat = some st := congrArg Prod.snd hmap
      have hgood : addr ≠ mapFailed := fun hf => hmaps (hfail hf)
      have hne : st.size ≠ 0 := fun hz => hgood (hsize hzero hz)
      have hlen : Slot.fileSize { s with conn := conn } = st.size := by
        simp only [Slot.fileSize, hstat, Option.map_some, Option.getD_some]
      have hmapped : Slot.mapped .fileRequest { s with conn := conn } = [.mmap addr st.size] := by
        simp only [Slot.mapped, Slot.fileAddress, haddr, if_pos (And.intro trivial hgood), hlen]
      have hheld : FileMapping.settled (s.log ++ [.request, .mmap addr st.size]) =
          some (some (addr, st.size)) := by
        rw [List.append_cons, settled_append, hrequest]
        rfl
      rw [hmapped, if_neg HttpCode.noConfusion] at hp
      obtain ⟨hok, hidx⟩ := processWrite_file (c := Slot.side mem { s with
        conn := conn, log := s.log ++ [.request, .mmap addr st.size], armed := .epollout }) (by
          show Slot.fileSize { s with conn := conn } ≠ 0
          rw [hlen]
          exact hne)
      generalize HttpConnWrite.processWrite _ .fileRequest = w at hp hok hidx
      obtain ⟨c, writeRet⟩ := w
      obtain rfl : writeRet = true := hok
      cases hp
      refine ⟨?_, fun _ => ⟨hopen, rfl, hidx⟩⟩
      show FileMapping.settled (s.log ++ [.request, .mmap addr st.size]) =
        some (conn.state.fileAddress.map fun addr => (addr, Slot.fileSize { s with conn := conn }))
      rw [hheld, haddr, hlen]
      rfl

/-- A call of `write`: the response goes on, or its mapping is undone. -/
theorem Inv.write {outcomes : List Writev} (h : Inv s) (hopen : s.sockfd ≠ -1)
    (hw : s.write mem outcomes = some s') : Inv s' := by
  unfold Slot.write at hw
  cases hcall : HttpConnWrite.write (s.side mem) outcomes with
  | none =>
    rw [hcall] at hw
    cases hw
  | some r =>
    obtain ⟨ended, c, sent⟩ := r
    rw [hcall] at hw
    have hunmap := Inv.unmap (s := s.takeSide c) h.settled
    by_cases hidx : (s.side mem).writeIdx = 0
    · -- nothing to send, and so nothing mapped
      have ha : s.fileAddress = none := by
        by_contra hne
        exact (h.pending hne).2.2 hidx
      rw [HttpConnWrite.write, if_pos hidx] at hcall
      cases hcall
      cases hw
      exact .of_none (h.settled_none ha) ha
    · rw [HttpConnWrite.write, if_neg hidx] at hcall
      obtain ⟨hsome, hagain⟩ := writeLoop_ended hcall
      cases ended with
      | nothing => exact absurd rfl hsome
      | again =>
        cases hw
        cases hagain rfl
        exact ⟨h.settled, fun hne => ⟨hopen, rfl, hidx⟩⟩
      | error =>
        cases hw
        exact hunmap.1.closeConn hunmap.2
      | kept =>
        cases hw
        exact .of_none (hunmap.1.settled_none hunmap.2) hunmap.2
      | closing =>
        cases hw
        exact Inv.closeConn (.of_none (hunmap.1.settled_none hunmap.2) hunmap.2) hunmap.2

theorem step_inv (s : Slot) (st : Step) (h : Inv s) (hok : enabled mem s st) (hc : Careful s st) :
    Inv (step mem s st) := by
  -- where a mapping is pending, a response is
  have hnone : s.armed = .epollin → s.fileAddress = none := by
    intro harmed
    by_contra hne
    rw [(h.pending hne).2.1] at harmed
    cases harmed
  cases st with
  | accept sockfd =>
    have ha : s.fileAddress = none := by
      by_contra hne
      exact (h.pending hne).1 hok.1
    exact .of_none (h.settled_none ha) ha
  | read chunk => exact ⟨h.settled, h.pending⟩
  | process fs =>
    obtain ⟨hopen, harmed, hret, hzero⟩ := hok
    obtain ⟨s', hs'⟩ := Option.ne_none_iff_exists'.mp hret
    show Inv ((s.process mem fs).getD s)
    rw [hs']
    exact h.process mem (hnone harmed) hopen hzero hc hs'
  | write outcomes =>
    obtain ⟨hopen, _, hret⟩ := hok
    obtain ⟨s', hs'⟩ := Option.ne_none_iff_exists'.mp hret
    show Inv ((s.write mem outcomes).getD s)
    rw [hs']
    exact h.write mem hopen hs'
  | close => exact h.closeConn hc

end Steps

/-- As long as no mapping fails and no connection is closed with a file mapped, each mapping is
undone as it is before the next request, and nothing else is. -/
theorem always_paired (s : Slot) {steps : List Step} (hv : (machine mem).Valid (start s) steps)
    (hc : (machine mem).Each Careful (start s) steps) :
    (machine mem).Always Paired (start s) steps := by
  have hinv := Machine.always_inv_of_each (step_inv mem) (start_inv s) hv hc
  refine hinv.imp fun s h => ?_
  rw [Paired, h.settled]
  rfl

/-- Every path is a file of five bytes, mapped at the same address. -/
def smallFiles : FileSystem where
  stat := fun _ => some { otherRead := true, isDir := false, size := 5 }
  mmap := fun _ => 4096

/-- A connection is accepted and a request for a file is processed. -/
def oneRequest : List Step :=
  [.accept 5, .read (Http.rootRequest ++ [cr, lf, cr, lf]),
    .process smallFiles]

def emptySlot : Slot where
  sockfd := -1
  armed := .epollin
  conn := HttpConn.init HttpConn.Members.blank
  writeBuf := []
  writeIdx := 0
  iv := []
  log := []

theorem smallFiles_nonempty : ∀ path st, smallFiles.stat path = some st → st.size = 0 →
    smallFiles.mmap path = mapFailed := by
  intro path st hst hz
  cases hst
  cases hz

theorem smallFiles_map (p : Conn) : ¬ MapFails smallFiles p := by
  rintro ⟨_, _, _, _, _, _, _, _, hfail⟩
  have hfail : 4096 = mapFailed := hfail
  exact absurd hfail (by decide)

/-- The response is sent, which undoes the mapping. -/
theorem paired_response : (machine fun _ => []).Always Paired (start emptySlot)
    (oneRequest ++ [.write [.took 1000]]) := by
  refine always_paired _ emptySlot ?_ ⟨trivial, trivial, smallFiles_map _, trivial, trivial⟩
  refine ⟨⟨rfl, by decide⟩, ⟨by decide, rfl, by decide +kernel⟩, ⟨by decide, rfl, ?_, ?_⟩,
    ⟨?_, ?_, ?_⟩, trivial⟩
  · exact Option.isSome_iff_ne_none.mp (by decide +kernel)
  · exact smallFiles_nonempty
  · decide +kernel
  · decide +kernel
  · exact Option.isSome_iff_ne_none.mp (by decide +kernel)

/-- The peer hangs up before the response is sent, and the slot gets another connection. -/
theorem unpaired_hangUp : ¬ ∀ (mem : Nat → List UInt8) (s : Slot) (steps : List Step),
    (machine mem).Valid (start s) steps → (machine mem).Always Paired (start s) steps := by
  intro hall
  have h := hall (fun _ => []) emptySlot (oneRequest ++ .close :: oneRequest) ?_
  · exact absurd h.last (by decide +kernel)
  refine ⟨⟨rfl, by decide⟩, ⟨by decide, rfl, by decide +kernel⟩, ⟨by decide, rfl, ?_, ?_⟩, trivial,
    ⟨?_, by decide⟩, ⟨?_, ?_, ?_⟩, ⟨?_, ?_, ?_, ?_⟩, trivial⟩
  · exact Option.isSome_iff_ne_none.mp (by decide +kernel)
  · exact smallFiles_nonempty
  · decide +kernel
  · decide +kernel
  · decide +kernel
  · decide +kernel
  · decide +kernel
  · decide +kernel
  · exact Option.isSome_iff_ne_none.mp (by decide +kernel)
  · exact smallFiles_nonempty

end FileMapping
end Unpvol1
