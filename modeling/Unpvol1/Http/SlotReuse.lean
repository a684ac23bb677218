import Unpvol1.Http.FileMapping
import Unpvol1.Lib.Lockstep

/-!
# Http.SlotReuse

An `http_conn` is used for one request after the other, and for one client after the other. `init()`
does not reset all of it: `m_file_address`, `m_file_stat` and `m_iv` stay.

* `seen`         — what a client and the main loop see of a call.
* `Alike`        — two slots that differ in the members above only, and offer the same response
  while there is one.
* `begins_anew`  — so what is seen from a new connection on, or from the next request of a kept one
  on, is what is seen of a new object.
-/

namespace Unpvol1
namespace FileMapping

open MainLoop (Ready)
open HttpConn (Conn Members FileSystem HttpCode FileStat)
open HttpConnWrite (Base WriteSide WriteEnd Writev writeBufferSize offered)

/-! ## Reading -/

section ReadSide

def putMembers (addr : Option Nat) (st : Option FileStat) (m : Members) : Members :=
  { m with fileAddress := addr, fileStat := st }

/-- The connection with another mapping. -/
def putMapping (addr : Option Nat) (st : Option FileStat) (p : Conn) : Conn :=
  { p with state := putMembers addr st p.state }

variable (addr : Option Nat) (st : Option FileStat)

theorem parseHeaders_put (buf : List UInt8) (text : Nat) (m : Members) :
    HttpConn.parseHeaders buf text (putMembers addr st m) =
      ((HttpConn.parseHeaders buf text m).1,
        putMembers addr st (HttpConn.parseHeaders buf text m).2) := by
  have hmethod : (putMembers addr st m).method = m.method := rfl
  have hlength : (putMembers addr st m).contentLength = m.contentLength := rfl
  simp only [HttpConn.parseHeaders, hmethod, hlength]
  by_cases hend : buf.getD text 0 = 0
  · simp only [if_pos hend]
    by_cases hhead : m.method = .head
    · simp only [if_pos hhead]
    · simp only [if_neg hhead]
      by_cases hbody : m.contentLength ≠ 0
      · simp only [if_pos hbody]
        rfl
      · simp only [if_neg hbody]
  · simp only [if_neg hend]
    split
    · rfl
    · split
      · rfl
      · split
        · rfl
        · rfl

theorem parseRequestLine_put (buf : List UInt8) (text : Nat) (m : Members) :
    HttpConn.parseRequestLine buf text (putMembers addr st m) =
      ((HttpConn.parseRequestLine buf text m).1, (HttpConn.parseRequestLine buf text m).2.1,
        putMembers addr st (HttpConn.parseRequestLine buf text m).2.2) := by
  have hversion : (putMembers addr st m).version = m.version := rfl
  simp only [HttpConn.parseRequestLine, hversion]
  split
  · rfl
  · rfl

theorem takeText_put (b : Http.LineBuf) (m : Members) :
    HttpConn.takeText b (putMembers addr st m) = ((HttpConn.takeText b m).1,
      (HttpConn.takeText b m).2.1, putMapping addr st (HttpConn.takeText b m).2.2) := by
  have hcontent : ∀ b' : Http.LineBuf, HttpConn.parseContent b' b.startLine (putMembers addr st m) =
    HttpConn.parseContent b' b.startLine m := fun _ => rfl
  have hstate : (putMembers addr st m).checkState = m.checkState := rfl
  simp only [HttpConn.takeText, hstate, hcontent, parseHeaders_put, parseRequestLine_put]
  split
  · rfl
  · rfl
  · split
    · rfl
    · rfl

theorem nextText_put (lineStatus : Http.LineStatus) (p : Conn) :
    HttpConn.nextText lineStatus (putMapping addr st p) = HttpConn.nextText lineStatus p := rfl

/-- By induction on the passes. -/
theorem parseReadLoop_put (fuel : Nat) (lineStatus : Http.LineStatus) (p : Conn) :
    HttpConn.parseReadLoop fuel lineStatus (putMapping addr st p) =
      ((HttpConn.parseReadLoop fuel lineStatus p).1,
        putMapping addr st (HttpConn.parseReadLoop fuel lineStatus p).2) := by
  induction fuel generalizing lineStatus p with
  | zero => rfl
  | succ fuel ih =>
    unfold HttpConn.parseReadLoop
    rw [nextText_put]
    split
    · rename_i b _
      have htake : HttpConn.takeText b (putMapping addr st p).state = _ := takeText_put addr st b _
      rw [htake]
      generalize HttpConn.takeText b p.state = r
      obtain ⟨_ | out, lineStatus', q⟩ := r
      · exact ih lineStatus' q
      · rfl
    · rfl

variable {addr st} {fs : FileSystem} {p q : Conn} {ret : HttpCode}

/-- A file that is mapped takes the place of whatever was mapped. -/
theorem doRequest_put (h : HttpConn.doRequest fs p = some (ret, q)) :
    ∃ addr' st', HttpConn.doRequest fs (putMapping addr st p) = some (ret, putMapping addr' st' q) ∧
      (ret = .fileRequest → putMapping addr' st' q = q) := by
  have hurl : (putMapping addr st p).state.url = p.state.url := rfl
  have hreal : (putMapping addr st p).state.realFile = p.state.realFile := rfl
  have hline : (putMapping addr st p).line = p.line := rfl
  simp only [HttpConn.doRequest, hurl, hreal, hline] at h ⊢
  cases hu : p.state.url with
  | none =>
    rw [hu] at h
    cases h
  | some u =>
    simp only [hu] at h ⊢
    split at h
    · cases h
      exact ⟨addr, st, rfl, fun hret => (by cases hret)⟩
    · rename_i found _
      split at h
      · rename_i hread
        cases h
        simp only [if_pos hread]
        exact ⟨addr, some found, rfl, fun hret => (by cases hret)⟩
      · rename_i hread
        simp only [if_neg hread]
        split at h
        · rename_i hdir
          cases h
          simp only [hdir, if_true]
          exact ⟨addr, some found, rfl, fun hret => (by cases hret)⟩
        · rename_i hdir
          cases h
          simp only [hdir]
          exact ⟨_, some found, rfl, fun _ => rfl⟩

variable (addr st) in
theorem processRead_put (h : HttpConn.processRead fs p = some (ret, q)) :
    ∃ addr' st', HttpConn.processRead fs (putMapping addr st p) =
      some (ret, putMapping addr' st' q) ∧ (ret = .fileRequest → putMapping addr' st' q = q) := by
  have hread : HttpConn.parseRead (putMapping addr st p) =
    ((HttpConn.parseRead p).1, putMapping addr st (HttpConn.parseRead p).2) :=
    parseReadLoop_put addr st _ _ p
  have hcodes := HttpConn.parseReadLoop_outcome (p.line.readIdx + 2) .lineOk p
  have hsame : HttpConn.parseReadLoop (p.line.readIdx + 2) .lineOk p = HttpConn.parseRead p := rfl
  rw [hsame] at hcodes
  unfold HttpConn.processRead at h ⊢
  rw [hread]
  generalize HttpConn.parseRead p = r at h hcodes ⊢
  obtain ⟨out, p'⟩ := r
  rcases hcodes with hout | hout | hout | hout
  · cases hout
    cases h
    exact ⟨addr, st, rfl, fun hret => (by cases hret)⟩
  · cases hout
    cases h
    exact ⟨addr, st, rfl, fun hret => (by cases hret)⟩
  · cases hout
    exact doRequest_put h
  · cases hout
    cases h

end ReadSide

/-! ## Writing -/

section WriteSide

def putSide (file : Option (List UInt8)) (size : Nat) (iv : List (Base × Nat)) (c : WriteSide) :
    WriteSide :=
  { c with fileAddress := file, fileSize := size, iv := iv }

variable (file : Option (List UInt8)) (size : Nat) (iv : List (Base × Nat))

theorem addResponse_put (c : WriteSide) (text : List UInt8) :
    HttpConnWrite.addResponse (putSide file size iv c) text =
      (putSide file size iv (HttpConnWrite.addResponse c text).1,
        (HttpConnWrite.addResponse c text).2) := by
  have hidx : (putSide file size iv c).writeIdx = c.writeIdx := rfl
  simp only [HttpConnWrite.addResponse, hidx]
  split
  · rfl
  · split
    · rfl
    · rfl

theorem addHeaders_put (c : WriteSide) (contentLen : Int) :
    HttpConnWrite.addHeaders (putSide file size iv c) contentLen =
      putSide file size iv (HttpConnWrite.addHeaders c contentLen) := by
  have hlinger : ∀ c', HttpConnWrite.addLinger (putSide file size iv c') =
      (putSide file size iv (HttpConnWrite.addLinger c').1, (HttpConnWrite.addLinger c').2) :=
    fun _ => addResponse_put file size iv _ _
  simp only [HttpConnWrite.addHeaders, HttpConnWrite.addContentLength, HttpConnWrite.addBlankLine,
    addResponse_put, hlinger]

/-- An error page is told by what is in the buffer. -/
theorem errorPage_put (c : WriteSide) (status : Int) (title form : List UInt8) :
    ∃ iv', HttpConnWrite.errorPage (putSide file size iv c) status title form =
        (putSide file size iv' (HttpConnWrite.errorPage c status title form).1,
          (HttpConnWrite.errorPage c status title form).2) ∧
      ((HttpConnWrite.errorPage c status title form).2 = true →
        iv' = (HttpConnWrite.errorPage c status title form).1.iv ∧
        ∃ n, (HttpConnWrite.errorPage c status title form).1.iv = [(.writeBuf, n)]) := by
  simp only [HttpConnWrite.errorPage, HttpConnWrite.addStatusLine, HttpConnWrite.addContent,
    addResponse_put, addHeaders_put]
  generalize HttpConnWrite.addResponse _ form = r
  obtain ⟨c', _ | _⟩ := r
  · exact ⟨iv, rfl, fun h => (by cases h)⟩
  · exact ⟨_, rfl, fun _ => ⟨rfl, _, rfl⟩⟩

theorem addResponse_file (c : WriteSide) (text : List UInt8) :
    (HttpConnWrite.addResponse c text).1.fileAddress = c.fileAddress ∧
      (HttpConnWrite.addResponse c text).1.fileSize = c.fileSize := by
  have hown := addResponse_put c.fileAddress c.fileSize c.iv c text
  have hc : HttpConnWrite.addResponse c text = _ := hown
  rw [hc]
  exact ⟨rfl, rfl⟩

theorem addHeaders_file (c : WriteSide) (contentLen : Int) :
    (HttpConnWrite.addHeaders c contentLen).fileAddress = c.fileAddress ∧
      (HttpConnWrite.addHeaders c contentLen).fileSize = c.fileSize := by
  have hown := addHeaders_put c.fileAddress c.fileSize c.iv c contentLen
  have hc : HttpConnWrite.addHeaders c contentLen = _ := hown
  rw [hc]
  exact ⟨rfl, rfl⟩

theorem addHeaders_iv (c : WriteSide) (contentLen : Int) :
    HttpConnWrite.addHeaders { c with iv := iv } contentLen =
      { HttpConnWrite.addHeaders c contentLen with iv := iv } := by
  obtain ⟨haddr, hsize⟩ := addHeaders_file c contentLen
  refine (addHeaders_put c.fileAddress c.fileSize iv c contentLen).trans ?_
  rw [putSide, ← haddr, ← hsize]

theorem addResponse_iv (c : WriteSide) (text : List UInt8) :
    (HttpConnWrite.addResponse { c with iv := iv } text).1 =
      { (HttpConnWrite.addResponse c text).1 with iv := iv } := by
  obtain ⟨haddr, hsize⟩ := addResponse_file c text
  refine (congrArg Prod.fst (addResponse_put c.fileAddress c.fileSize iv c text)).trans ?_
  rw [putSide, ← haddr, ← hsize]

theorem addStatusLine_iv (c : WriteSide) (status : Int) (title : List UInt8) :
    (HttpConnWrite.addStatusLine { c with iv := iv } status title).1 =
      { (HttpConnWrite.addStatusLine c status title).1 with iv := iv } := addResponse_iv iv c _

theorem addContent_iv (c : WriteSide) (content : List UInt8) :
    (HttpConnWrite.addContent { c with iv := iv } content).1 =
      { (HttpConnWrite.addContent c content).1 with iv := iv } := addResponse_iv iv c _

/-- The response for a file, whatever the pieces of an earlier one. -/
theorem fileRequest_iv (c : WriteSide) :
    ∃ iv', HttpConnWrite.processWrite { c with iv := iv } .fileRequest =
        ({ (HttpConnWrite.processWrite c .fileRequest).1 with iv := iv' },
          (HttpConnWrite.processWrite c .fileRequest).2) ∧
      ((HttpConnWrite.processWrite c .fileRequest).2 = true →
        iv' = (HttpConnWrite.processWrite c .fileRequest).1.iv) := by
  simp only [HttpConnWrite.processWrite, addStatusLine_iv, addHeaders_iv]
  by_cases hz : (HttpConnWrite.addStatusLine c 200 HttpConnWrite.ok200Title).1.fileSize ≠ 0
  · simp only [if_pos hz]
    exact ⟨_, rfl, fun _ => rfl⟩
  · simp only [if_neg hz, addContent_iv]
    exact ⟨iv, rfl, fun h => (by cases h)⟩

theorem fileRequest_file (c : WriteSide) :
    (HttpConnWrite.processWrite c .fileRequest).1.fileAddress = c.fileAddress ∧
      (HttpConnWrite.processWrite c .fileRequest).1.fileSize = c.fileSize := by
  have hline : (HttpConnWrite.addStatusLine c 200 HttpConnWrite.ok200Title).1.fileAddress =
      c.fileAddress ∧ (HttpConnWrite.addStatusLine c 200 HttpConnWrite.ok200Title).1.fileSize =
      c.fileSize := addResponse_file c _
  obtain ⟨haddr, hsize⟩ := hline
  simp only [HttpConnWrite.processWrite]
  by_cases hz : (HttpConnWrite.addStatusLine c 200 HttpConnWrite.ok200Title).1.fileSize ≠ 0
  · simp only [if_pos hz]
    obtain ⟨haddr', hsize'⟩ := addHeaders_file (HttpConnWrite.addStatusLine c 200
      HttpConnWrite.ok200Title).1 (HttpConn.toInt32
        (HttpConnWrite.addStatusLine c 200 HttpConnWrite.ok200Title).1.fileSize)
    exact ⟨haddr'.trans haddr, hsize'.trans hsize⟩
  · simp only [if_neg hz]
    obtain ⟨haddr', hsize'⟩ := addHeaders_file (HttpConnWrite.addStatusLine c 200
      HttpConnWrite.ok200Title).1 HttpConnWrite.okString.length
    obtain ⟨haddr₂, hsize₂⟩ := addResponse_file (HttpConnWrite.addHeaders
      (HttpConnWrite.addStatusLine c 200 HttpConnWrite.ok200Title).1
        HttpConnWrite.okString.length) HttpConnWrite.okString
    exact ⟨(haddr₂.trans haddr').trans haddr, (hsize₂.trans hsize').trans hsize⟩

/-- What is prepared does not depend on the mapping and the pieces of an earlier response. -/
theorem processWrite_put {c : WriteSide} {ret : HttpCode}
    (hfile : ret = .fileRequest → file = c.fileAddress ∧ size = c.fileSize) :
    ∃ iv', HttpConnWrite.processWrite (putSide file size iv c) ret =
        (putSide file size iv' (HttpConnWrite.processWrite c ret).1,
          (HttpConnWrite.processWrite c ret).2) ∧
      ((HttpConnWrite.processWrite c ret).2 = true →
        iv' = (HttpConnWrite.processWrite c ret).1.iv ∧
        offered (putSide file size iv' (HttpConnWrite.processWrite c ret).1) =
          offered (HttpConnWrite.processWrite c ret).1) := by
  have hpage : ∀ (status : Int) (title form : List UInt8),
      ∃ iv', HttpConnWrite.errorPage (putSide file size iv c) status title form =
          (putSide file size iv' (HttpConnWrite.errorPage c status title form).1,
            (HttpConnWrite.errorPage c status title form).2) ∧
        ((HttpConnWrite.errorPage c status title form).2 = true →
          iv' = (HttpConnWrite.errorPage c status title form).1.iv ∧
          offered (putSide file size iv' (HttpConnWrite.errorPage c status title form).1) =
            offered (HttpConnWrite.errorPage c status title form).1) := by
    intro status title form
    obtain ⟨iv', heq, hiv⟩ := errorPage_put file size iv c status title form
    refine ⟨iv', heq, fun hok => ?_⟩
    obtain ⟨hsame, n, hn⟩ := hiv hok
    refine ⟨hsame, ?_⟩
    rw [hsame]
    simp only [offered, putSide, hn, List.flatMap_cons, List.flatMap_nil]
  cases ret with
  | internalError =>
    simp only [HttpConnWrite.processWrite]
    exact hpage 500 HttpConnWrite.error500Title HttpConnWrite.error500Form
  | badRequest =>
    simp only [HttpConnWrite.processWrite]
    exact hpage 400 HttpConnWrite.error400Title HttpConnWrite.error400Form
  | noResource =>
    simp only [HttpConnWrite.processWrite]
    exact hpage 404 HttpConnWrite.error404Title HttpConnWrite.error404Form
  | forbiddenRequest =>
    simp only [HttpConnWrite.processWrite]
    exact hpage 403 HttpConnWrite.error403Title HttpConnWrite.error403Form
  | fileRequest =>
    obtain ⟨rfl, rfl⟩ := hfile rfl
    obtain ⟨iv', heq, hiv⟩ := fileRequest_iv iv c
    obtain ⟨haddr, hsize⟩ := fileRequest_file c
    have hput : putSide c.fileAddress c.fileSize iv' (HttpConnWrite.processWrite c .fileRequest).1 =
        { (HttpConnWrite.processWrite c .fileRequest).1 with iv := iv' } := by
      rw [putSide, ← haddr, ← hsize]
    refine ⟨iv', ?_, fun hok => ⟨hiv hok, ?_⟩⟩
    · rw [hput]
      exact heq
    · rw [hput, hiv hok]
  | noRequest => exact ⟨iv, rfl, fun h => (by cases h)⟩
  | getRequest => exact ⟨iv, rfl, fun h => (by cases h)⟩
  | closedConnection => exact ⟨iv, rfl, fun h => (by cases h)⟩

theorem processWrite_file_kept (c : WriteSide) (ret : HttpCode) :
    (HttpConnWrite.processWrite c ret).1.fileAddress = c.fileAddress ∧
      (HttpConnWrite.processWrite c ret).1.fileSize = c.fileSize := by
  have hself : ret = .fileRequest → c.fileAddress = c.fileAddress ∧ c.fileSize = c.fileSize :=
    fun _ => ⟨rfl, rfl⟩
  obtain ⟨iv', heq, _⟩ := processWrite_put c.fileAddress c.fileSize c.iv hself
  have hc : HttpConnWrite.processWrite c ret = _ := heq
  rw [hc]
  exact ⟨rfl, rfl⟩

/-- Two responses that are sent the same. -/
structure SameSide (c c' : WriteSide) : Prop where
  writeBuf : c'.writeBuf = c.writeBuf
  writeIdx : c'.writeIdx = c.writeIdx
  linger : c'.linger = c.linger
  iv : c'.iv = c.iv
  offered : offered c' = offered c

/-- By induction on the `writev` calls, each of which is offered the same. -/
theorem writeLoop_same {c c' c₁ : WriteSide} {n k : Int} {outcomes : List Writev}
    {ended : WriteEnd} {sent : List UInt8} (h : SameSide c c')
    (hw : HttpConnWrite.writeLoop c n k outcomes = some (ended, c₁, sent)) :
    ∃ c₁', HttpConnWrite.writeLoop c' n k outcomes = some (ended, c₁', sent) ∧
      c₁'.writeBuf = c₁.writeBuf ∧ c₁'.writeIdx = c₁.writeIdx ∧ c₁'.linger = c₁.linger := by
  induction outcomes generalizing n k sent with
  | nil => cases hw
  | cons o outcomes ih =>
    cases o with
    | again =>
      cases hw
      exact ⟨c', rfl, h.writeBuf, h.writeIdx, h.linger⟩
    | fail =>
      cases hw
      exact ⟨_, rfl, h.writeBuf, h.writeIdx, h.linger⟩
    | took m =>
      simp only [HttpConnWrite.writeLoop, h.offered, h.linger] at hw ⊢
      split at hw
      · rename_i hdone
        simp only [if_pos hdone]
        split at hw
        · rename_i hlinger
          cases hw
          simp only [hlinger, if_true]
          exact ⟨_, rfl, rfl, rfl, rfl⟩
        · rename_i hlinger
          cases hw
          simp only [hlinger]
          exact ⟨_, rfl, h.writeBuf, h.writeIdx, h.linger⟩
      · rename_i hmore
        simp only [if_neg hmore]
        obtain ⟨⟨e, c₂, rest⟩, hrest, hsame⟩ := Option.bind_eq_some_iff.mp hw
        cases hsame
        obtain ⟨c₂', hrest', hkept⟩ := ih hrest
        exact ⟨c₂', by rw [hrest']; rfl, hkept⟩

theorem write_same {c c' c₁ : WriteSide} {outcomes : List Writev} {ended : WriteEnd}
    {sent : List UInt8} (h : SameSide c c')
    (hw : HttpConnWrite.write c outcomes = some (ended, c₁, sent)) :
    ∃ c₁', HttpConnWrite.write c' outcomes = some (ended, c₁', sent) ∧
      c₁'.writeBuf = c₁.writeBuf ∧ c₁'.writeIdx = c₁.writeIdx ∧ c₁'.linger = c₁.linger ∧
      (ended = .again → c₁ = c ∧ c₁' = c') := by
  simp only [HttpConnWrite.write, h.writeIdx] at hw ⊢
  split at hw
  · rename_i hz
    cases hw
    simp only [if_pos hz]
    exact ⟨_, rfl, rfl, rfl, rfl, fun he => (by cases he)⟩
  · rename_i hz
    simp only [if_neg hz]
    obtain ⟨c₁', hw', hbuf, hidx, hlinger⟩ := writeLoop_same h hw
    exact ⟨c₁', hw', hbuf, hidx, hlinger,
      fun he => ⟨(writeLoop_ended hw).2 he, (writeLoop_ended hw').2 he⟩⟩

end WriteSide

/-! ## The slot -/

section
variable (mem : Nat → List UInt8)

/-- How a call of `write` ends and what it hands over, and what the slot is registered for after a
step. -/
def seen (s : Slot) (e : Step) : Option (WriteEnd × List UInt8) × Int × Ready :=
  (match e with
    | .write outcomes =>
      (HttpConnWrite.write (s.side mem) outcomes).map fun (ended, _, sent) => (ended, sent)
    | _ => none,
   (step mem s e).sockfd, (step mem s e).armed)

/-- `t` differs from `s` in the mapping and the pieces of a response only, and while there is a
response to be sent it offers the same. -/
structure Alike (s t : Slot) : Prop where
  sockfd : t.sockfd = s.sockfd
  armed : t.armed = s.armed
  conn : ∃ addr st, t.conn = putMapping addr st s.conn
  writeBuf : t.writeBuf = s.writeBuf
  writeIdx : t.writeIdx = s.writeIdx
  pending : s.sockfd ≠ -1 → s.armed = .epollout → SameSide (s.side mem) (t.side mem)

variable {mem} {s t : Slot}

/-- `init()` leaves no other difference. -/
theorem alike_init (hfd : t.sockfd = s.sockfd) :
    Alike mem { s.init with armed := .epollin } { t.init with armed := .epollin } where
  sockfd := hfd
  armed := rfl
  conn := ⟨t.conn.state.fileAddress, t.conn.state.fileStat, rfl⟩
  writeBuf := rfl
  writeIdx := rfl
  pending := fun _ h => (by cases h)

theorem closeConn_alike (hfd : t.sockfd = s.sockfd) (ha : t.armed = s.armed)
    (hc : ∃ addr st, t.conn = putMapping addr st s.conn) (hb : t.writeBuf = s.writeBuf)
    (hi : t.writeIdx = s.writeIdx) : Alike mem s.closeConn t.closeConn := by
  by_cases hopen : s.sockfd = -1
  · have hs : s.closeConn = s := by
      simp only [Slot.closeConn, hopen, ne_eq, not_true_eq_false, if_false]
    have ht : t.closeConn = t := by
      simp only [Slot.closeConn, hfd, hopen, ne_eq, not_true_eq_false, if_false]
    rw [hs, ht]
    exact ⟨hfd, ha, hc, hb, hi, fun h => absurd hopen h⟩
  · have hs : s.closeConn = { s with sockfd := -1 } := if_pos hopen
    have ht : t.closeConn = { t with sockfd := -1 } := if_pos (hfd ▸ hopen)
    rw [hs, ht]
    exact ⟨rfl, ha, hc, hb, hi, fun h => absurd rfl h⟩

theorem takeSide_side (s : Slot) {c : WriteSide} (hfile : c.fileAddress = s.fileAddress.map mem)
    (hsize : c.fileSize = s.fileSize) : (s.takeSide c).side mem = c := by
  obtain ⟨buf, idx, linger, file, size, iv⟩ := c
  obtain rfl : file = s.fileAddress.map mem := hfile
  obtain rfl : size = s.fileSize := hsize
  rfl

theorem takeSide_conn {addr : Option Nat} {st : Option FileStat} {c c' : WriteSide}
    (hconn : t.conn = putMapping addr st s.conn) (hlinger : c'.linger = c.linger) :
    (t.takeSide c').conn = putMapping addr st (s.takeSide c).conn := by
  show ({ t.conn with state := { t.conn.state with linger := c'.linger } } : Conn) = _
  rw [hconn, hlinger]
  rfl

/-- `process_write`, and `close_conn()` when it fails. -/
def answered (mem : Nat → List UInt8) (ret : HttpCode) (s : Slot) : Slot :=
  if (HttpConnWrite.processWrite (s.side mem) ret).2 then
    s.takeSide (HttpConnWrite.processWrite (s.side mem) ret).1
  else (s.takeSide (HttpConnWrite.processWrite (s.side mem) ret).1).closeConn

theorem answered_alike {ret : HttpCode} (addr : Option Nat) (st : Option FileStat)
    (hfd : t.sockfd = s.sockfd) (harmed : t.armed = s.armed)
    (hconn : t.conn = putMapping addr st s.conn) (hfile : ret = .fileRequest → t.conn = s.conn)
    (hb : t.writeBuf = s.writeBuf) (hi : t.writeIdx = s.writeIdx) :
    Alike mem (answered mem ret s) (answered mem ret t) := by
  have hside : t.side mem =
      putSide (t.fileAddress.map mem) t.fileSize t.iv (s.side mem) := by
    have hlinger : t.conn.state.linger = s.conn.state.linger := by
      rw [hconn]
      rfl
    simp only [Slot.side, putSide, hb, hi, hlinger]
  have hsame : ret = .fileRequest → t.fileAddress.map mem = (s.side mem).fileAddress ∧
      t.fileSize = (s.side mem).fileSize := by
    intro hret
    simp only [Slot.side, Slot.fileAddress, Slot.fileSize, hfile hret, and_self]
  obtain ⟨iv', heq, hok⟩ := processWrite_put (t.fileAddress.map mem) t.fileSize t.iv hsame
  obtain ⟨haddr, hsize⟩ := processWrite_file_kept (s.side mem) ret
  unfold answered
  rw [hside, heq]
  generalize HttpConnWrite.processWrite (s.side mem) ret = r at haddr hsize hok
  obtain ⟨c, _ | _⟩ := r
  · simp only [Bool.false_eq_true, if_false]
    exact closeConn_alike hfd harmed ⟨addr, st, takeSide_conn hconn rfl⟩ rfl rfl
  · obtain ⟨hiv, hoff⟩ := hok rfl
    simp only [if_true]
    refine ⟨hfd, harmed, ⟨addr, st, takeSide_conn hconn rfl⟩, rfl, rfl, fun _ _ => ?_⟩
    rw [takeSide_side s haddr hsize, takeSide_side t rfl rfl]
    exact ⟨rfl, rfl, rfl, hiv, hoff⟩

/-- A result of `process_read` with what follows it. -/
theorem process_alike {fs : FileSystem} (h : Alike mem s t) (hs : s.process mem fs ≠ none) :
    ∃ s' t', s.process mem fs = some s' ∧ t.process mem fs = some t' ∧ Alike mem s' t' := by
  obtain ⟨addr, st, hconn⟩ := h.conn
  cases hread : HttpConn.processRead fs s.conn with
  | none =>
    simp only [Slot.process, hread] at hs
    exact absurd rfl hs
  | some r =>
    obtain ⟨ret, q⟩ := r
    obtain ⟨addr', st', hread', hfile⟩ := processRead_put addr st hread
    rw [← hconn] at hread'
    simp only [Slot.process, hread, hread']
    by_cases hno : ret = .noRequest
    · simp only [if_pos hno]
      exact ⟨_, _, rfl, rfl, h.sockfd, rfl, ⟨addr', st', rfl⟩, h.writeBuf, h.writeIdx,
        fun _ ha => (by cases ha)⟩
    · simp only [if_neg hno]
      refine ⟨_, _, rfl, rfl, answered_alike addr' st' h.sockfd rfl rfl ?_
        h.writeBuf h.writeIdx⟩
      exact hfile

theorem unmap_conn (s : Slot) :
    ∃ addr st, s.unmap.conn = putMapping addr st s.conn ∧ s.unmap.sockfd = s.sockfd ∧
      s.unmap.armed = s.armed ∧ s.unmap.writeBuf = s.writeBuf ∧ s.unmap.writeIdx = s.writeIdx := by
  unfold Slot.unmap
  split
  · exact ⟨s.conn.state.fileAddress, s.conn.state.fileStat, rfl, rfl, rfl, rfl, rfl⟩
  · exact ⟨none, s.conn.state.fileStat, rfl, rfl, rfl, rfl, rfl⟩

theorem unmap_alike {addr : Option Nat} {st : Option FileStat} (hfd : t.sockfd = s.sockfd)
    (ha : t.armed = s.armed) (hconn : t.conn = putMapping addr st s.conn)
    (hb : t.writeBuf = s.writeBuf) (hi : t.writeIdx = s.writeIdx) :
    t.unmap.sockfd = s.unmap.sockfd ∧ t.unmap.armed = s.unmap.armed ∧
      (∃ addr st, t.unmap.conn = putMapping addr st s.unmap.conn) ∧
      t.unmap.writeBuf = s.unmap.writeBuf ∧ t.unmap.writeIdx = s.unmap.writeIdx := by
  obtain ⟨_, _, hcs, hfds, has, hbs, his⟩ := unmap_conn s
  obtain ⟨addr', st', hct, hfdt, hat, hbt, hit⟩ := unmap_conn t
  rw [hfds, has, hbs, his, hfdt, hat, hbt, hit, hct, hcs, hconn]
  exact ⟨hfd, ha, ⟨addr', st', rfl⟩, hb, hi⟩

/-- What `write` and `main` do when the loop has ended. -/
def afterWrite (s : Slot) : WriteEnd → Slot
  | .nothing => { s.init with armed := .epollin }
  | .again => { s with armed := .epollout }
  | .error => s.unmap.closeConn
  | .kept => { s.unmap.init with armed := .epollin }
  | .closing => { s.unmap with armed := .epollin }.closeConn

theorem write_eq {outcomes : List Writev} {ended : WriteEnd} {c : WriteSide} {sent : List UInt8}
    (hw : HttpConnWrite.write (s.side mem) outcomes = some (ended, c, sent)) :
    s.write mem outcomes = some (afterWrite (s.takeSide c) ended) := by
  simp only [Slot.write, hw]
  cases ended <;> rfl

theorem write_alike {outcomes : List Writev} (h : Alike mem s t) (hopen : s.sockfd ≠ -1)
    (harmed : s.armed = .epollout) (hs : s.write mem outcomes ≠ none) :
    ∃ s' t' ended c c' sent,
      HttpConnWrite.write (s.side mem) outcomes = some (ended, c, sent) ∧
      HttpConnWrite.write (t.side mem) outcomes = some (ended, c', sent) ∧
      s.write mem outcomes = some s' ∧ t.write mem outcomes = some t' ∧ Alike mem s' t' := by
  obtain ⟨addr, st, hconn⟩ := h.conn
  cases hw : HttpConnWrite.write (s.side mem) outcomes with
  | none =>
    simp only [Slot.write, hw] at hs
    exact absurd rfl hs
  | some r =>
    obtain ⟨ended, c, sent⟩ := r
    obtain ⟨c', hw', hbuf, hidx, hlinger, hagain⟩ := write_same (h.pending hopen harmed) hw
    refine ⟨_, _, ended, c, c', sent, rfl, hw', write_eq hw, write_eq hw', ?_⟩
    have hconn' : (t.takeSide c').conn = putMapping addr st (s.takeSide c).conn :=
      takeSide_conn hconn hlinger
    obtain ⟨hfd, ha, hc, hb, hi⟩ :=
      unmap_alike (s := s.takeSide c) (t := t.takeSide c') h.sockfd h.armed hconn' hbuf hidx
    cases ended with
    | nothing => exact alike_init (s := s.takeSide c) (t := t.takeSide c') h.sockfd
    | again =>
      obtain ⟨rfl, rfl⟩ := hagain rfl
      exact ⟨h.sockfd, rfl, ⟨addr, st, hconn⟩, hbuf, hidx, fun ho _ => h.pending ho harmed⟩
    | error => exact closeConn_alike hfd ha hc hb hi
    | kept => exact alike_init hfd
    | closing => exact closeConn_alike hfd rfl hc hb hi

/-- A step is possible in both, shows the same, and leaves them alike. -/
theorem step_alike {e : Step} (h : Alike mem s t) (hok : enabled mem s e) :
    enabled mem t e ∧ seen mem s e = seen mem t e ∧ Alike mem (step mem s e) (step mem t e) := by
  have hsee : ∀ s' t', step mem s e = s' → step mem t e = t' → Alike mem s' t' →
      (seen mem s e).2 = (seen mem t e).2 := by
    intro s' t' hs ht ha
    simp only [seen, hs, ht, ha.sockfd, ha.armed]
  cases e with
  | accept sockfd =>
    have ha : Alike mem (s.accept sockfd) (t.accept sockfd) :=
      alike_init (s := { s with sockfd := sockfd }) (t := { t with sockfd := sockfd }) rfl
    exact ⟨⟨h.sockfd.trans hok.1, hok.2⟩, Prod.ext rfl (hsee _ _ rfl rfl ha), ha⟩
  | read chunk =>
    obtain ⟨addr, st, hconn⟩ := h.conn
    have hline : t.conn.line = s.conn.line := by
      rw [hconn]
      rfl
    have ha : Alike mem (s.read chunk) (t.read chunk) := by
      refine ⟨h.sockfd, h.armed, ⟨addr, st, ?_⟩, h.writeBuf, h.writeIdx, fun _ hout => ?_⟩
      · show t.conn.receive chunk = _
        rw [hconn]
        rfl
      · have hin : s.armed = .epollout := hout
        rw [hok.2.1] at hin
        cases hin
    refine ⟨⟨?_, ?_, ?_⟩, Prod.ext rfl (hsee _ _ rfl rfl ha), ha⟩
    · rw [h.sockfd]
      exact hok.1
    · exact h.armed.trans hok.2.1
    · rw [hline]
      exact hok.2.2
  | process fs =>
    obtain ⟨hopen, hin, hsome, hmap⟩ := hok
    obtain ⟨s', t', hs, ht, ha⟩ := process_alike h hsome
    have hs' : step mem s (.process fs) = s' := by
      simp only [step, hs, Option.getD_some]
    have ht' : step mem t (.process fs) = t' := by
      simp only [step, ht, Option.getD_some]
    refine ⟨⟨?_, h.armed.trans hin, ?_, hmap⟩, Prod.ext rfl (hsee _ _ hs' ht' ha), ?_⟩
    · rw [h.sockfd]
      exact hopen
    · rw [ht]
      exact fun hn => (by cases hn)
    · rw [hs', ht']
      exact ha
  | write outcomes =>
    obtain ⟨hopen, hout, hsome⟩ := hok
    obtain ⟨s', t', ended, c, c', sent, hw, hw', hs, ht, ha⟩ := write_alike h hopen hout hsome
    have hs' : step mem s (.write outcomes) = s' := by
      simp only [step, hs, Option.getD_some]
    have ht' : step mem t (.write outcomes) = t' := by
      simp only [step, ht, Option.getD_some]
    refine ⟨⟨?_, h.armed.trans hout, ?_⟩, Prod.ext ?_ (hsee _ _ hs' ht' ha), ?_⟩
    · rw [h.sockfd]
      exact hopen
    · rw [ht]
      exact fun hn => (by cases hn)
    · simp only [seen, hw, hw', Option.map_some]
    · rw [hs', ht']
      exact ha
  | close =>
    obtain ⟨addr, st, hconn⟩ := h.conn
    have ha : Alike mem s.closeConn t.closeConn :=
      closeConn_alike h.sockfd h.armed ⟨addr, st, hconn⟩ h.writeBuf h.writeIdx
    exact ⟨trivial, Prod.ext rfl (hsee _ _ rfl rfl ha), ha⟩

/-- What a step begins: a connection, or the next request of one that is kept. -/
def Begins (mem : Nat → List UInt8) (s : Slot) : Step → Prop
  | .accept _ => True
  | .write outcomes =>
    (HttpConnWrite.write (s.side mem) outcomes).map (fun r => r.1) = some .kept
  | _ => False

instance (mem : Nat → List UInt8) (s : Slot) : (e : Step) → Decidable (Begins mem s e)
  | .accept _ => inferInstanceAs (Decidable True)
  | .write outcomes => inferInstanceAs (Decidable
      ((HttpConnWrite.write (s.side mem) outcomes).map (fun r => r.1) = some .kept))
  | .read _ => inferInstanceAs (Decidable False)
  | .process _ => inferInstanceAs (Decidable False)
  | .close => inferInstanceAs (Decidable False)

/-- A new object with a connection. -/
def anew (sockfd : Int) : Slot where
  sockfd := sockfd
  armed := .epollin
  conn := HttpConn.init HttpConn.Members.blank
  writeBuf := List.replicate writeBufferSize 0
  writeIdx := 0
  iv := []
  log := []

theorem begins_alike {e : Step} (hb : Begins mem s e) :
    Alike mem (step mem s e) (anew (step mem s e).sockfd) := by
  cases e with
  | accept sockfd =>
    exact alike_init (s := { s with sockfd := sockfd }) (t := anew sockfd) rfl
  | write outcomes =>
    obtain ⟨⟨ended, c, sent⟩, hw, hkept⟩ := Option.map_eq_some_iff.mp hb
    obtain rfl : ended = .kept := hkept
    have hs : step mem s (.write outcomes) = afterWrite (s.takeSide c) .kept := by
      simp only [step, write_eq hw, Option.getD_some]
    rw [hs]
    exact alike_init (s := (s.takeSide c).unmap) (t := anew (s.takeSide c).unmap.sockfd) rfl
  | read chunk => cases hb
  | process fs => cases hb
  | close => cases hb

/-- From a new connection on, and from the next request of one that is kept on, all is as with a new
object, whatever the slot was used for before. -/
theorem begins_anew (s : Slot) (es : List Step) (e : Step) (es' : List Step)
    (hv : (machine mem).Valid (start s) (es ++ e :: es'))
    (hb : Begins mem ((machine mem).run (start s) es) e) :
    (machine mem).Valid (anew ((machine mem).run (start s) (es ++ [e])).sockfd) es' ∧
      (machine mem).trace (seen mem) ((machine mem).run (start s) (es ++ [e])) es' =
        (machine mem).trace (seen mem) (anew ((machine mem).run (start s) (es ++ [e])).sockfd)
          es' := by
  have hrun : (machine mem).run (start s) (es ++ [e]) =
      step mem ((machine mem).run (start s) es) e := Machine.run_append _ _ _
  rw [hrun]
  exact Machine.trace_eq (M := machine mem) (R := Alike mem) (fun _ _ _ h hok => step_alike h hok)
    (begins_alike hb) (Machine.valid_append.mp hv).2.2

end

/-- A request for the root of the server with a header that keeps the connection. -/
def keptRequest : List UInt8 :=
  Http.rootRequest ++ [cr, lf] ++ HttpConn.connectionText ++ HttpConn.keepAliveText ++
    [cr, lf, cr, lf]

def fiveBytes (_ : Nat) : List UInt8 := [104, 101, 108, 108, 111]

/-- The connection is kept for a second request, which is answered in two calls. -/
theorem begins_anew_kept :
    (machine fiveBytes).trace (seen fiveBytes)
        ((machine fiveBytes).run (start emptySlot)
          [.accept 5, .read keptRequest, .process smallFiles, .write [.took 1000]])
        [.read keptRequest, .process smallFiles, .write [.again], .write [.took 1000]] =
      (machine fiveBytes).trace (seen fiveBytes) (anew 5)
        [.read keptRequest, .process smallFiles, .write [.again], .write [.took 1000]] := by
  have hsome : ∀ {α : Type} {o : Option α}, o.isSome = true → o ≠ none :=
    fun h => Option.isSome_iff_ne_none.mp h
  refine (begins_anew emptySlot [.accept 5, .read keptRequest, .process smallFiles]
    (.write [.took 1000])
    [.read keptRequest, .process smallFiles, .write [.again], .write [.took 1000]] ?_
    (by decide +kernel)).2
  refine ⟨⟨rfl, by decide⟩, ⟨by decide, rfl, by decide +kernel⟩,
    ⟨by decide, rfl, hsome (by decide +kernel), smallFiles_nonempty⟩,
    ⟨by decide +kernel, by decide +kernel, hsome (by decide +kernel)⟩,
    ⟨by decide +kernel, by decide +kernel, by decide +kernel⟩,
    ⟨by decide +kernel, by decide +kernel, hsome (by decide +kernel), smallFiles_nonempty⟩,
    ⟨by decide +kernel, by decide +kernel, hsome (by decide +kernel)⟩,
    ⟨by decide +kernel, by decide +kernel, hsome (by decide +kernel)⟩, trivial⟩

end FileMapping
end Unpvol1
