import Mathlib.Data.List.TakeDrop
import Unpvol1.Http.HttpConn
import Unpvol1.Lib.Machine

/-!
# Http.HttpConnWrite

The write side of `http_conn`: the response `process_write` prepares, and the calls of `write` that
hand it to the socket.

* `WriteSide`     — the members the two use. `request` — what `process_write` starts from.
* `processWrite`, `write` — the two functions; `offered` — what each `writev` is offered, which is
  the whole response every time, as `m_iv` is never advanced.
* `Prepared`      — a prepared response starts with an `H`, and has no other one in its headers.
* `machine`       — the calls of `write` for a response, with what they have handed to the socket.
* `handed_iff`    — the response is handed over as it is just when the first `writev` takes all.
-/

namespace Unpvol1
namespace HttpConnWrite

open HttpConn (HttpCode toInt32)

def writeBufferSize : Nat := 1024

/-- `"OK"` -/
def ok200Title : List UInt8 := [79, 75]

/-- `"Bad Request"` -/
def error400Title : List UInt8 := [66, 97, 100, 32, 82, 101, 113, 117, 101, 115, 116]

/-- `"Your request has bad syntax or is inherently impossible to satisfy.\n"` -/
def error400Form : List UInt8 :=
  [89, 111, 117, 114, 32, 114, 101, 113, 117, 101, 115, 116, 32, 104, 97, 115, 32, 98, 97, 100,
   32, 115, 121, 110, 116, 97, 120, 32, 111, 114, 32, 105, 115, 32, 105, 110, 104, 101, 114, 101,
   110, 116, 108, 121, 32, 105, 109, 112, 111, 115, 115, 105, 98, 108, 101, 32, 116, 111, 32, 115,
   97, 116, 105, 115, 102, 121, 46, 10]

/-- `"Forbidden"` -/
def error403Title : List UInt8 := [70, 111, 114, 98, 105, 100, 100, 101, 110]

/-- `"You do not have permission to get file from this server.\n"` -/
def error403Form : List UInt8 :=
  [89, 111, 117, 32, 100, 111, 32, 110, 111, 116, 32, 104, 97, 118, 101, 32, 112, 101, 114, 109,
   105, 115, 115, 105, 111, 110, 32, 116, 111, 32, 103, 101, 116, 32, 102, 105, 108, 101, 32, 102,
   114, 111, 109, 32, 116, 104, 105, 115, 32, 115, 101, 114, 118, 101, 114, 46, 10]

/-- `"Not Found"` -/
def error404Title : List UInt8 := [78, 111, 116, 32, 70, 111, 117, 110, 100]

/-- `"The requested file was not found on this server.\n"` -/
def error404Form : List UInt8 :=
  [84, 104, 101, 32, 114, 101, 113, 117, 101, 115, 116, 101, 100, 32, 102, 105, 108, 101, 32, 119,
   97, 115, 32, 110, 111, 116, 32, 102, 111, 117, 110, 100, 32, 111, 110, 32, 116, 104, 105, 115,
   32, 115, 101, 114, 118, 101, 114, 46, 10]

/-- `"Internal Error"` -/
def error500Title : List UInt8 :=
  [73, 110, 116, 101, 114, 110, 97, 108, 32, 69, 114, 114, 111, 114]

/-- `"There was an unusual problem serving the requested file.\n"` -/
def error500Form : List UInt8 :=
  [84, 104, 101, 114, 101, 32, 119, 97, 115, 32, 97, 110, 32, 117, 110, 117, 115, 117, 97, 108,
   32, 112, 114, 111, 98, 108, 101, 109, 32, 115, 101, 114, 118, 105, 110, 103, 32, 116, 104, 101,
   32, 114, 101, 113, 117, 101, 115, 116, 101, 100, 32, 102, 105, 108, 101, 46, 10]

/-- `"<html><body></body></html>"` -/
def okString : List UInt8 :=
  [60, 104, 116, 109, 108, 62, 60, 98, 111, 100, 121, 62, 60, 47, 98, 111, 100, 121, 62, 60, 47,
   104, 116, 109, 108, 62]

/-- `"HTTP/1.1 "` -/
def versionText : List UInt8 := [72, 84, 84, 80, 47, 49, 46, 49, 32]

/-- `"Content-Length: "` -/
def contentLengthText : List UInt8 :=
  [67, 111, 110, 116, 101, 110, 116, 45, 76, 101, 110, 103, 116, 104, 58, 32]

/-- `"Connection: "` -/
def connectionText : List UInt8 := [67, 111, 110, 110, 101, 99, 116, 105, 111, 110, 58, 32]

/-- `"keep-alive"` -/
def keepAliveText : List UInt8 := [107, 101, 101, 112, 45, 97, 108, 105, 118, 101]

/-- `"close"` -/
def closeText : List UInt8 := [99, 108, 111, 115, 101]

/-- `"\r\n"` -/
def endOfLine : List UInt8 := [13, 10]

/-- `"%d"` -/
def decimal (n : Int) : List UInt8 :=
  (if n < 0 then [45] else []) ++ (Nat.toDigits 10 n.natAbs).map fun c => c.toNat.toUInt8

/-- Where the bytes of an `iovec` are. -/
inductive Base where
  | writeBuf
  | file
deriving DecidableEq

/-- The members of `http_conn` the write side uses. `iv` is `m_iv` up to `m_iv_count`, and
`fileAddress` the bytes mapped at `m_file_address`. -/
structure WriteSide where
  writeBuf : List UInt8
  writeIdx : Nat
  linger : Bool
  fileAddress : Option (List UInt8)
  fileSize : Nat
  iv : List (Base × Nat)
deriving DecidableEq

/-- After `init()` and a request for `file`, or one that fails. -/
def request (linger : Bool) (file : List UInt8) (iv : List (Base × Nat)) : WriteSide where
  writeBuf := List.replicate writeBufferSize 0
  writeIdx := 0
  linger := linger
  fileAddress := some file
  fileSize := file.length
  iv := iv

/-- `init()`, as far as the write side goes. -/
def init (c : WriteSide) : WriteSide :=
  { c with writeBuf := List.replicate writeBufferSize 0, writeIdx := 0, linger := false }

def unmap (c : WriteSide) : WriteSide := { c with fileAddress := none }

/-! ## Preparing -/

/-- `vsnprintf( m_write_buf + i, n, … )` of a format that prints `text`. -/
def printAt (buf : List UInt8) (i n : Nat) (text : List UInt8) : List UInt8 :=
  if n = 0 then buf else overwrite buf i (text.take (n - 1) ++ [0])

def addResponse (c : WriteSide) (text : List UInt8) : WriteSide × Bool :=
  if c.writeIdx ≥ writeBufferSize then
    (c, false)
  else
    let n := writeBufferSize - 1 - c.writeIdx
    let c := { c with writeBuf := printAt c.writeBuf c.writeIdx n text }
    if text.length ≥ n then (c, false) else ({ c with writeIdx := c.writeIdx + text.length }, true)

def addStatusLine (c : WriteSide) (status : Int) (title : List UInt8) : WriteSide × Bool :=
  addResponse c (versionText ++ decimal status ++ [32] ++ title ++ endOfLine)

def addContentLength (c : WriteSide) (contentLen : Int) : WriteSide × Bool :=
  addResponse c (contentLengthText ++ decimal contentLen ++ endOfLine)

def addLinger (c : WriteSide) : WriteSide × Bool :=
  addResponse c (connectionText ++ (if c.linger then keepAliveText else closeText) ++ endOfLine)

def addBlankLine (c : WriteSide) : WriteSide × Bool := addResponse c endOfLine

/-- The results of the three are not looked at. -/
def addHeaders (c : WriteSide) (contentLen : Int) : WriteSide :=
  let c := (addContentLength c contentLen).1
  let c := (addLinger c).1
  (addBlankLine c).1

def addContent (c : WriteSide) (content : List UInt8) : WriteSide × Bool := addResponse c content

/-- One of the four cases that answer with an error page. -/
def errorPage (c : WriteSide) (status : Int) (title form : List UInt8) : WriteSide × Bool :=
  let c := (addStatusLine c status title).1
  let c := addHeaders c form.length
  match addContent c form with
  | (c, false) => (c, false)
  | (c, true) => ({ c with iv := [(.writeBuf, c.writeIdx)] }, true)

def processWrite (c : WriteSide) : HttpCode → WriteSide × Bool
  | .internalError => errorPage c 500 error500Title error500Form
  | .badRequest => errorPage c 400 error400Title error400Form
  | .noResource => errorPage c 404 error404Title error404Form
  | .forbiddenRequest => errorPage c 403 error403Title error403Form
  | .fileRequest =>
    let c := (addStatusLine c 200 ok200Title).1
    if c.fileSize ≠ 0 then
      let c := addHeaders c (toInt32 c.fileSize)
      ({ c with iv := [(.writeBuf, c.writeIdx), (.file, c.fileSize)] }, true)
    else
      -- the case falls through to `default`
      let c := addHeaders c okString.length
      ((addContent c okString).1, false)
  | _ => (c, false)

/-! ## Sending -/

/-- What a `writev` of `m_iv` is offered. -/
def offered (c : WriteSide) : List UInt8 :=
  c.iv.flatMap fun
    | (.writeBuf, len) => c.writeBuf.take len
    | (.file, len) => (c.fileAddress.getD []).take len

/-- What a `writev` comes to: some bytes taken, `EAGAIN`, or another error. -/
inductive Writev where
  | took (n : Nat)
  | again
  | fail
deriving DecidableEq

/-- How a call of `write` ends. -/
inductive WriteEnd where
  /-- There was no response. -/
  | nothing
  | again
  | error
  /-- The response counts as sent, and the connection is kept. -/
  | kept
  /-- The response counts as sent, and the connection is to be closed. -/
  | closing
deriving DecidableEq

def WriteEnd.returned : WriteEnd → Bool
  | .nothing | .again | .kept => true
  | .error | .closing => false

/-- The loop of `write`: how it ends, the connection then, and the bytes the socket took. It has no
result before the call returns. -/
def writeLoop (c : WriteSide) (bytesToSend bytesHaveSend : Int) :
    List Writev → Option (WriteEnd × WriteSide × List UInt8)
  | [] => none
  | .again :: _ => some (.again, c, [])
  | .fail :: _ => some (.error, unmap c, [])
  | .took n :: outcomes =>
    let sent := (offered c).take n
    let bytesToSend := bytesToSend - n
    let bytesHaveSend := bytesHaveSend + n
    if bytesToSend ≤ bytesHaveSend then
      if c.linger then some (.kept, init (unmap c), sent) else some (.closing, unmap c, sent)
    else do
      let (ended, c', rest) ← writeLoop c bytesToSend bytesHaveSend outcomes
      some (ended, c', sent ++ rest)

def write (c : WriteSide) (outcomes : List Writev) : Option (WriteEnd × WriteSide × List UInt8) :=
  if c.writeIdx = 0 then some (.nothing, init c, []) else writeLoop c c.writeIdx 0 outcomes

/-- The connection, what the socket has taken, and how the response ended, once it has. -/
structure Sending where
  conn : WriteSide
  handed : List UInt8
  ended : Option WriteEnd
deriving DecidableEq

/-- A call of `write`, after which the response is over unless it was interrupted by `EAGAIN`. -/
def call (s : Sending) (outcomes : List Writev) : Sending :=
  match write s.conn outcomes with
  | none => s
  | some (.again, c, sent) => { s with conn := c, handed := s.handed ++ sent }
  | some (ended, c, sent) => { conn := c, handed := s.handed ++ sent, ended := some ended }

/-- A `writev` takes at least one byte, and no more than it is offered. -/
def machine : Machine Sending (List Writev) where
  step := call
  ok s outcomes := s.ended = none ∧ write s.conn outcomes ≠ none ∧
    ∀ n, .took n ∈ outcomes → 1 ≤ n ∧ n ≤ (offered s.conn).length

def start (c : WriteSide) : Sending where
  conn := c
  handed := []
  ended := none

/-- What the first `writev` that is not refused takes. -/
def firstTaken : List (List Writev) → Option Nat
  | (.took n :: _) :: _ => some n
  | _ :: calls => firstTaken calls
  | [] => none

/-! ## What is prepared -/

/-- `c'` is `c` with `t` behind the text in its buffer. -/
structure Adds (c c' : WriteSide) (t : List UInt8) : Prop where
  same : c' = { c with writeBuf := c'.writeBuf, writeIdx := c'.writeIdx }
  size : c'.writeBuf.length = c.writeBuf.length
  idx : c'.writeIdx = c.writeIdx + t.length
  text : c'.writeBuf.take c'.writeIdx = c.writeBuf.take c.writeIdx ++ t

theorem Adds.trans {c c' c'' : WriteSide} {t t' : List UInt8} (h : Adds c c' t)
    (h' : Adds c' c'' t') : Adds c c'' (t ++ t') := by
  refine ⟨?_, h'.size.trans h.size, ?_, ?_⟩
  · rw [h'.same, h.same]
  · rw [h'.idx, h.idx, List.length_append, Nat.add_assoc]
  · rw [h'.text, h.text, List.append_assoc]

theorem printAt_length {buf text : List UInt8} {i n : Nat} (h : i + n ≤ buf.length) :
    (printAt buf i n text).length = buf.length := by
  by_cases hn : n = 0
  · simp [printAt, hn]
  · simp only [printAt, hn, if_false]
    refine overwrite_length_within ?_
    rw [List.length_append, List.length_take, List.length_singleton]
    omega

/-- Text that does not fit is not counted. -/
theorem addResponse_adds {c : WriteSide} (hc : c.writeBuf.length = writeBufferSize)
    (text : List UInt8) :
    Adds c (addResponse c text).1 (if (addResponse c text).2 then text else []) ∧
      (c.writeIdx + text.length < writeBufferSize - 1 → (addResponse c text).2 = true) := by
  unfold addResponse
  by_cases hfull : c.writeIdx ≥ writeBufferSize
  · simp only [hfull, if_true, Bool.false_eq_true, if_false]
    refine ⟨⟨rfl, rfl, by simp, by simp⟩, fun h => ?_⟩
    omega
  · simp only [hfull, if_false]
    have hidx : c.writeIdx ≤ c.writeBuf.length := by omega
    have hsize := @printAt_length _ text _ _
      (show c.writeIdx + (writeBufferSize - 1 - c.writeIdx) ≤ c.writeBuf.length by omega)
    by_cases hlong : text.length ≥ writeBufferSize - 1 - c.writeIdx
    · simp only [hlong, if_true, Bool.false_eq_true, if_false]
      refine ⟨⟨rfl, hsize, by simp, ?_⟩, fun h => by omega⟩
      simp only [printAt, List.append_nil]
      split
      · rfl
      · exact take_overwrite_of_le hidx (Nat.le_refl _)
    · simp only [hlong, if_false, if_true]
      refine ⟨⟨rfl, hsize, rfl, ?_⟩, fun _ => trivial⟩
      have hn : writeBufferSize - 1 - c.writeIdx ≠ 0 := by omega
      have htext : text.take (writeBufferSize - 1 - c.writeIdx - 1) = text :=
        List.take_of_length_le (by omega)
      have htake := take_overwrite (c := text ++ [0]) hidx
      simp only [printAt, hn, if_false, htext]
      have := congrArg (List.take (c.writeIdx + text.length)) htake
      rw [List.take_take, Nat.min_eq_left (by simp), ← List.append_assoc] at this
      rw [this]
      exact List.take_left' (by simp [Nat.min_eq_left hidx])

/-- A digit is one byte. -/
theorem digit_byte {n : Nat} {ch : Char} (h : ch ∈ Nat.toDigits 10 n) :
    48 ≤ ch.toNat ∧ ch.toNat ≤ 57 ∧ ch.toNat.toUInt8.toNat = ch.toNat := by
  have hd := Nat.isDigit_of_mem_toDigits (by decide) (by decide) h
  simp only [Char.isDigit, Bool.and_eq_true, decide_eq_true_eq] at hd
  have hle : ch.toNat ≤ 57 := hd.2
  exact ⟨hd.1, hle, UInt8.toNat_ofNat_of_lt' (Nat.lt_of_le_of_lt hle (by decide))⟩

theorem not_mem_decimal {n : Int} {b : UInt8} (hb : b ≠ 45) (hd : b.toNat < 48 ∨ 57 < b.toNat) :
    b ∉ decimal n := by
  intro h
  rcases List.mem_append.mp h with h | h
  · split at h
    · exact hb (List.mem_singleton.mp h)
    · cases h
  · obtain ⟨ch, hch, rfl⟩ := List.mem_map.mp h
    obtain ⟨hlo, hhi, hbyte⟩ := digit_byte hch
    omega

theorem decimal_no_h (n : Int) : (72 : UInt8) ∉ decimal n :=
  not_mem_decimal (by decide) (.inr (by decide))

/-- Text without an `H`. -/
def NoH (t : List UInt8) : Prop := (72 : UInt8) ∉ t

instance : DecidablePred NoH := fun t => inferInstanceAs (Decidable (72 ∉ t))

theorem NoH.append {t t' : List UInt8} (h : NoH t) (h' : NoH t') : NoH (t ++ t') :=
  fun hm => (List.mem_append.mp hm).elim h h'

theorem addResponse_noH {c : WriteSide} (hc : c.writeBuf.length = writeBufferSize)
    {text : List UInt8} (ht : NoH text) :
    ∃ t, NoH t ∧ Adds c (addResponse c text).1 t := by
  refine ⟨_, ?_, (addResponse_adds hc text).1⟩
  split
  · exact ht
  · exact List.not_mem_nil

theorem addHeaders_noH {c : WriteSide} (hc : c.writeBuf.length = writeBufferSize)
    (contentLen : Int) : ∃ t, NoH t ∧ Adds c (addHeaders c contentLen) t := by
  have hline : NoH endOfLine := by decide
  have hlen : NoH (contentLengthText ++ decimal contentLen ++ endOfLine) :=
    NoH.append (NoH.append (by decide) (decimal_no_h _)) hline
  obtain ⟨t₁, h₁, a₁⟩ := addResponse_noH hc hlen
  have hc₁ := a₁.size.trans hc
  have hlinger : ∀ l : Bool,
      NoH (connectionText ++ (if l then keepAliveText else closeText) ++ endOfLine) := by
    decide
  obtain ⟨t₂, h₂, a₂⟩ := addResponse_noH hc₁ (hlinger _)
  obtain ⟨t₃, h₃, a₃⟩ := addResponse_noH (a₂.size.trans hc₁) hline
  exact ⟨t₁ ++ t₂ ++ t₃, (h₁.append h₂).append h₃, (a₁.trans a₂).trans a₃⟩

/-- The response is a header that starts with an `H` and has no other, and a body. -/
structure Prepared (c : WriteSide) (body : List UInt8) : Prop where
  idx : (c.writeBuf.take c.writeIdx).length = c.writeIdx
  whole : offered c = c.writeBuf.take c.writeIdx ++ body
  starts : ∃ rest, c.writeBuf.take c.writeIdx = 72 :: rest ∧ NoH rest

theorem request_size (linger : Bool) (file : List UInt8) (iv : List (Base × Nat)) :
    (request linger file iv).writeBuf.length = writeBufferSize := List.length_replicate

theorem statusLine_adds (linger : Bool) (file : List UInt8) (iv : List (Base × Nat)) {status : Int}
    {title : List UInt8} (ht : NoH title)
    (hlen : (versionText ++ decimal status ++ [32] ++ title ++ endOfLine).length <
      writeBufferSize - 1) :
    ∃ rest, NoH rest ∧
      Adds (request linger file iv) (addStatusLine (request linger file iv) status title).1
        (72 :: rest) := by
  obtain ⟨hadds, hfits⟩ := addResponse_adds (request_size linger file iv)
    (versionText ++ decimal status ++ [32] ++ title ++ endOfLine)
  have hok := hfits (by simpa [request] using hlen)
  rw [if_pos hok] at hadds
  -- the text as its first letter and the rest
  have htext : versionText ++ decimal status ++ [32] ++ title ++ endOfLine =
      72 :: (versionText.tail ++ decimal status ++ [32] ++ title ++ endOfLine) := rfl
  rw [htext] at hadds
  refine ⟨versionText.tail ++ decimal status ++ [32] ++ title ++ endOfLine, ?_, hadds⟩
  have h₁ : NoH versionText.tail := by decide
  have h₂ : NoH [32] := by decide
  exact ((((h₁.append (decimal_no_h _)).append h₂).append ht).append (by decide))

theorem prepared_of_adds {linger : Bool} {file : List UInt8} {iv iv' : List (Base × Nat)}
    {c : WriteSide} {rest body : List UInt8} (h : Adds (request linger file iv) c (72 :: rest))
    (hrest : NoH rest)
    (ho : offered { c with iv := iv' } = c.writeBuf.take c.writeIdx ++ body) :
    Prepared { c with iv := iv' } body := by
  have htext : c.writeBuf.take c.writeIdx = 72 :: rest := by
    rw [h.text]
    simp [request]
  refine ⟨?_, ho, rest, htext, hrest⟩
  show (c.writeBuf.take c.writeIdx).length = c.writeIdx
  rw [htext, h.idx]
  simp [request]

theorem errorPage_prepared {linger : Bool} {file : List UInt8} {iv : List (Base × Nat)}
    {c : WriteSide} {status : Int} {title form : List UInt8} (ht : NoH title) (hf : NoH form)
    (hlen : (versionText ++ decimal status ++ [32] ++ title ++ endOfLine).length <
      writeBufferSize - 1)
    (h : errorPage (request linger file iv) status title form = (c, true)) : Prepared c [] := by
  obtain ⟨r₁, hr₁, a₁⟩ := statusLine_adds linger file iv ht hlen
  have hc₁ := a₁.size.trans (request_size linger file iv)
  obtain ⟨r₂, hr₂, a₂⟩ := addHeaders_noH hc₁ form.length
  obtain ⟨r₃, hr₃, a₃⟩ := addResponse_noH (a₂.size.trans hc₁) hf
  have hall := (a₁.trans a₂).trans a₃
  simp only [errorPage, addContent] at h
  generalize addResponse (addHeaders (addStatusLine (request linger file iv) status title).1
    form.length) form = r at h hall
  obtain ⟨c₃, ok⟩ := r
  cases ok with
  | false => simp at h
  | true =>
    obtain rfl : _ = c := (Prod.mk.inj h).1
    exact prepared_of_adds hall ((hr₁.append hr₂).append hr₃) (by simp [offered])

theorem offered_file {c : WriteSide} {file : List UInt8} (ha : c.fileAddress = some file)
    (hs : c.fileSize = file.length) :
    offered { c with iv := [(.writeBuf, c.writeIdx), (.file, c.fileSize)] } =
      c.writeBuf.take c.writeIdx ++ file := by
  simp [offered, ha, hs]

theorem fileRequest_prepared {linger : Bool} {file : List UInt8} {iv : List (Base × Nat)}
    {c : WriteSide} (h : processWrite (request linger file iv) .fileRequest = (c, true)) :
    Prepared c file := by
  obtain ⟨r₁, hr₁, a₁⟩ := @statusLine_adds linger file iv 200 ok200Title (by decide) (by decide)
  have hc₁ := a₁.size.trans (request_size linger file iv)
  simp only [processWrite] at h
  generalize (addStatusLine (request linger file iv) 200 ok200Title).1 = c₁ at h a₁ hc₁
  obtain ⟨r₂, hr₂, a₂⟩ := addHeaders_noH hc₁ (toInt32 c₁.fileSize)
  have hall := a₁.trans a₂
  by_cases hsize : c₁.fileSize ≠ 0
  · rw [if_pos hsize] at h
    generalize addHeaders c₁ (toInt32 c₁.fileSize) = c₂ at h hall
    have hfile : c₂.fileAddress = some file ∧ c₂.fileSize = file.length := by
      rw [hall.same]
      exact ⟨rfl, rfl⟩
    obtain rfl : _ = c := (Prod.mk.inj h).1
    exact prepared_of_adds hall (hr₁.append hr₂) (offered_file hfile.1 hfile.2)
  · rw [if_neg hsize] at h
    exact nomatch (Prod.mk.inj h).2

theorem processWrite_prepared {linger : Bool} {file : List UInt8} {iv : List (Base × Nat)}
    {c : WriteSide} {ret : HttpCode}
    (h : processWrite (request linger file iv) ret = (c, true)) :
    Prepared c (if ret = .fileRequest then file else []) := by
  cases ret with
  | fileRequest => exact fileRequest_prepared h
  | internalError =>
    simp only [processWrite] at h
    exact errorPage_prepared (by decide) (by decide) (by decide) h
  | badRequest =>
    simp only [processWrite] at h
    exact errorPage_prepared (by decide) (by decide) (by decide) h
  | noResource =>
    simp only [processWrite] at h
    exact errorPage_prepared (by decide) (by decide) (by decide) h
  | forbiddenRequest =>
    simp only [processWrite] at h
    exact errorPage_prepared (by decide) (by decide) (by decide) h
  | noRequest => simp [processWrite] at h
  | getRequest => simp [processWrite] at h
  | closedConnection => simp [processWrite] at h

/-! ## Calls -/

/-- The response counts as sent. -/
def Finished (s : Sending) : Prop := s.ended = some .kept ∨ s.ended = some .closing

instance (s : Sending) : Decidable (Finished s) := inferInstanceAs (Decidable (_ ∨ _))

section
variable {c : WriteSide} {x : UInt8}

theorem head_take {l : List UInt8} {n : Nat} (hl : l.head? = some x) (hn : 1 ≤ n) :
    (l.take n).head? = some x := by
  rw [List.head?_take, if_neg (Nat.ne_of_gt hn), hl]

theorem head_append {l r : List UInt8} (hl : l = [] ∨ l.head? = some x) (hr : r.head? = some x) :
    (l ++ r).head? = some x := by
  rcases hl with rfl | hl
  · exact hr
  · rw [List.head?_append, hl, Option.some_or]

/-- Whatever a call hands over starts like the response, by induction on its `writev`s. -/
theorem writeLoop_spec (hx : (offered c).head? = some x) {toSend haveSend : Int}
    {outcomes : List Writev} (ho : ∀ n, .took n ∈ outcomes → 1 ≤ n) {e : WriteEnd} {c' : WriteSide}
    {sent : List UInt8} (h : writeLoop c toSend haveSend outcomes = some (e, c', sent)) :
    (sent = [] ∨ sent.head? = some x) ∧ (e = .again → c' = c) ∧
      (e = .kept ∨ e = .closing → sent ≠ []) ∧ e ≠ .nothing := by
  induction outcomes generalizing toSend haveSend e c' sent with
  | nil => simp [writeLoop] at h
  | cons o outcomes ih =>
    cases o with
    | again =>
      simp only [writeLoop, Option.some.injEq, Prod.mk.injEq] at h
      obtain ⟨rfl, rfl, rfl⟩ := h
      simp
    | fail =>
      simp only [writeLoop, Option.some.injEq, Prod.mk.injEq] at h
      obtain ⟨rfl, rfl, rfl⟩ := h
      simp
    | took n =>
      have hhead := head_take hx (ho n List.mem_cons_self)
      have hne : (offered c).take n ≠ [] := by
        intro hnil
        rw [hnil] at hhead
        cases hhead
      rw [writeLoop] at h
      split at h
      · split at h
        · simp only [Option.some.injEq, Prod.mk.injEq] at h
          obtain ⟨rfl, rfl, rfl⟩ := h
          simp [hhead, hne]
        · simp only [Option.some.injEq, Prod.mk.injEq] at h
          obtain ⟨rfl, rfl, rfl⟩ := h
          simp [hhead, hne]
      · obtain ⟨⟨e₁, c₁, rest⟩, hrest, h⟩ := Option.bind_eq_some_iff.mp h
        simp only [Option.some.injEq, Prod.mk.injEq] at h
        obtain ⟨rfl, rfl, rfl⟩ := h
        obtain ⟨-, hagain, -, hnothing⟩ :=
          ih (fun m hm => ho m (List.mem_cons_of_mem _ hm)) hrest
        refine ⟨.inr ?_, hagain, fun _ => ?_, hnothing⟩
        · rw [List.head?_append, hhead, Option.some_or]
        · simp [hne]

theorem valid_ended {s : Sending} (hs : s.ended ≠ none) {calls : List (List Writev)}
    (hv : machine.Valid s calls) : calls = [] := by
  cases calls with
  | nil => rfl
  | cons os calls => exact absurd hv.1.1 hs

/-- What is handed over from a state in which the response is still to be finished. -/
theorem run_later (hx : (offered c).head? = some x) (hidx : c.writeIdx ≠ 0) {s : Sending}
    (hs : s.conn = c) {calls : List (List Writev)} (hv : machine.Valid s calls)
    (hend : s.ended = none) (hfin : Finished (machine.run s calls)) :
    ∃ later, (machine.run s calls).handed = s.handed ++ later ∧ later.head? = some x := by
  induction calls generalizing s with
  | nil => simp [Finished, hend] at hfin
  | cons os calls ih =>
    obtain ⟨⟨-, hsome, hbounds⟩, hv⟩ := hv
    obtain ⟨⟨e, c', sent⟩, hw⟩ := Option.ne_none_iff_exists'.mp hsome
    have hloop : writeLoop c c.writeIdx 0 os = some (e, c', sent) := by
      rw [hs, write, if_neg hidx] at hw
      exact hw
    obtain ⟨hsent, hagain, hne, hnothing⟩ := writeLoop_spec hx (fun n hn => (hbounds n hn).1) hloop
    have hstep : machine.step s os = call s os := rfl
    rw [Machine.run_cons] at hfin ⊢
    rw [hstep, call, hw] at hfin hv ⊢
    cases e with
    | again =>
      obtain ⟨later, hl, hhead⟩ := ih (hagain rfl) hv hend hfin
      exact ⟨sent ++ later, by rw [hl, List.append_assoc], head_append hsent hhead⟩
    | kept =>
      obtain rfl := valid_ended (by simp) hv
      exact ⟨sent, rfl, hsent.resolve_left (hne (.inl rfl))⟩
    | closing =>
      obtain rfl := valid_ended (by simp) hv
      exact ⟨sent, rfl, hsent.resolve_left (hne (.inr rfl))⟩
    | error =>
      obtain rfl := valid_ended (by simp) hv
      simp [Finished] at hfin
    | nothing => exact absurd rfl hnothing

theorem Prepared.head {body : List UInt8} (h : Prepared c body) :
    (offered c).head? = some 72 := by
  obtain ⟨rest, htext, -⟩ := h.starts
  rw [h.whole, htext]
  rfl

theorem Prepared.idx_ne {body : List UInt8} (h : Prepared c body) : c.writeIdx ≠ 0 := by
  obtain ⟨rest, htext, -⟩ := h.starts
  rw [← h.idx, htext]
  simp

theorem Prepared.idx_le {body : List UInt8} (h : Prepared c body) :
    c.writeIdx ≤ (offered c).length := by
  rw [h.whole, List.length_append, h.idx]
  exact Nat.le_add_right _ _

/-- From inside its header, the response does not start over. -/
theorem Prepared.no_restart {body : List UInt8} (h : Prepared c body) {n : Nat} (hn : 1 ≤ n)
    (hlt : n < c.writeIdx) {z : List UInt8} (hz : z.head? = some 72) :
    (offered c).take n ++ z ≠ offered c := by
  obtain ⟨rest, htext, hrest⟩ := h.starts
  obtain ⟨m, rfl⟩ := Nat.exists_eq_add_of_le' hn
  have hlen : rest.length + 1 = c.writeIdx := by
    have := h.idx
    rwa [htext] at this
  intro e
  have hdrop : z = (offered c).drop (m + 1) := by
    have := e.trans (List.take_append_drop (m + 1) (offered c)).symm
    exact List.append_cancel_left this
  rw [hdrop, h.whole, htext, List.cons_append, List.drop_succ_cons, List.head?_drop,
    List.getElem?_append_left (by omega)] at hz
  exact hrest (List.mem_of_getElem? hz)

/-- A `writev` that takes less than half of the header: the next one starts over. -/
theorem handed_short {body : List UInt8} (h : Prepared c body) {s : Sending} (hs : s.conn = c)
    (hnil : s.handed = []) {n : Nat} {os : List Writev} {calls : List (List Writev)}
    (hbounds : ∀ m, .took m ∈ os → 1 ≤ m) (hhalf : ¬ (c.writeIdx : Int) - n ≤ 0 + n)
    (hsome : writeLoop c c.writeIdx 0 (.took n :: os) ≠ none)
    (hv : machine.Valid (call s (.took n :: os)) calls) (hend : s.ended = none)
    (hfin : Finished (machine.run (call s (.took n :: os)) calls)) :
    ∃ z, (machine.run (call s (.took n :: os)) calls).handed = (offered c).take n ++ z ∧
      z.head? = some 72 := by
  obtain ⟨⟨e, c', sent⟩, hloop⟩ := Option.ne_none_iff_exists'.mp hsome
  have hcall : write s.conn (.took n :: os) = some (e, c', sent) := by
    rw [hs, write, if_neg h.idx_ne, hloop]
  rw [writeLoop, if_neg hhalf] at hloop
  obtain ⟨⟨e₁, c₁, rest⟩, hrest, hloop⟩ := Option.bind_eq_some_iff.mp hloop
  simp only [Option.some.injEq, Prod.mk.injEq] at hloop
  obtain ⟨rfl, rfl, rfl⟩ := hloop
  obtain ⟨hsent, hagain, hne, hnothing⟩ := writeLoop_spec h.head hbounds hrest
  rw [call, hcall] at hfin hv ⊢
  cases e₁ with
  | again =>
    obtain ⟨later, hl, hhead⟩ := run_later h.head h.idx_ne (hagain rfl) hv hend hfin
    refine ⟨rest ++ later, ?_, head_append hsent hhead⟩
    rw [hl]
    simp [hnil]
  | kept =>
    obtain rfl := valid_ended (by simp) hv
    exact ⟨rest, by simp [hnil], hsent.resolve_left (hne (.inl rfl))⟩
  | closing =>
    obtain rfl := valid_ended (by simp) hv
    exact ⟨rest, by simp [hnil], hsent.resolve_left (hne (.inr rfl))⟩
  | error =>
    obtain rfl := valid_ended (by simp) hv
    simp [Finished] at hfin
  | nothing => exact absurd rfl hnothing

/-- A `writev` that takes half of the header or more: the response counts as sent, whatever is left
of it. -/
theorem handed_half {body : List UInt8} (h : Prepared c body) {s : Sending} (hs : s.conn = c)
    (hnil : s.handed = []) {n : Nat} {os : List Writev} {calls : List (List Writev)}
    (hhalf : (c.writeIdx : Int) - n ≤ 0 + n)
    (hv : machine.Valid (call s (.took n :: os)) calls) :
    (machine.run (call s (.took n :: os)) calls).handed = (offered c).take n := by
  obtain ⟨e, c', he, hloop⟩ : ∃ e c', (e = .kept ∨ e = .closing) ∧
      write s.conn (.took n :: os) = some (e, c', (offered c).take n) := by
    rw [hs, write, if_neg h.idx_ne, writeLoop, if_pos hhalf]
    split
    · exact ⟨_, _, .inl rfl, rfl⟩
    · exact ⟨_, _, .inr rfl, rfl⟩
  have hcall : call s (.took n :: os) =
      { conn := c', handed := (offered c).take n, ended := some e } := by
    rw [call, hloop, hnil]
    rcases he with rfl | rfl <;> rfl
  rw [hcall] at hv ⊢
  obtain rfl := valid_ended (by simp) hv
  rw [Machine.run_nil]

/-- A `writev` that fails ends the sending. -/
theorem not_finished_fail {body : List UInt8} (h : Prepared c body) {s : Sending}
    (hs : s.conn = c) {os : List Writev} {calls : List (List Writev)}
    (hv : machine.Valid (call s (.fail :: os)) calls) :
    ¬ Finished (machine.run (call s (.fail :: os)) calls) := by
  have hcall : call s (.fail :: os) =
      { conn := unmap c, handed := s.handed ++ [], ended := some .error } := by
    rw [call, hs, write, if_neg h.idx_ne, writeLoop]
  rw [hcall] at hv ⊢
  obtain rfl := valid_ended (by simp) hv
  simp [Finished]

/-- The first `writev` that is not refused decides, by induction on the calls before it. -/
theorem handed_from {body : List UInt8} (h : Prepared c body) {s : Sending} (hs : s.conn = c)
    (hnil : s.handed = []) (hend : s.ended = none) {calls : List (List Writev)}
    (hv : machine.Valid s calls) (hfin : Finished (machine.run s calls)) :
    (machine.run s calls).handed = offered c ↔ firstTaken calls = some (offered c).length := by
  induction calls generalizing s with
  | nil => simp [Finished, hend] at hfin
  | cons os calls ih =>
    obtain ⟨⟨-, hsome, hbounds⟩, hv⟩ := hv
    have hwrite : write s.conn os = writeLoop c c.writeIdx 0 os := by
      rw [hs, write, if_neg h.idx_ne]
    rw [hwrite] at hsome
    cases os with
    | nil => exact absurd rfl hsome
    | cons o os =>
      cases o with
      | again =>
        have hcall : call s (.again :: os) = s := by
          rw [call, hwrite, writeLoop, ← hs]
          simp
        have hv : machine.Valid (call s (.again :: os)) calls := hv
        have hfin : Finished (machine.run (call s (.again :: os)) calls) := hfin
        rw [hcall] at hv hfin
        have := ih hs hnil hend hv hfin
        rwa [← hcall] at this
      | fail => exact absurd hfin (not_finished_fail h hs hv)
      | took n =>
        obtain ⟨hn, hle⟩ := hbounds n List.mem_cons_self
        rw [hs] at hle
        show (machine.run (call s (.took n :: os)) calls).handed = offered c ↔
          some n = some (offered c).length
        rw [Option.some.injEq]
        by_cases hhalf : (c.writeIdx : Int) - n ≤ 0 + n
        · rw [handed_half h hs hnil hhalf hv, List.take_eq_self_iff]
          omega
        · obtain ⟨z, hz, hhead⟩ := handed_short h hs hnil
            (fun m hm => (hbounds m (List.mem_cons_of_mem _ hm)).1) hhalf hsome hv hend hfin
          have hidx := h.idx_le
          rw [hz]
          constructor
          · intro e
            exact absurd e (h.no_restart hn (by omega) hhead)
          · intro e
            omega

end

/-- A response that counts as sent has been handed over as it is, header and file, each byte once
and in order, just when the first `writev` that was not refused took all of it. -/
theorem handed_iff (linger : Bool) (file : List UInt8) (iv : List (Base × Nat)) (ret : HttpCode)
    (c : WriteSide) (hp : processWrite (request linger file iv) ret = (c, true))
    (calls : List (List Writev)) (hv : machine.Valid (start c) calls)
    (hfin : Finished (machine.run (start c) calls)) :
    (machine.run (start c) calls).handed =
        c.writeBuf.take c.writeIdx ++ (if ret = .fileRequest then file else []) ↔
      firstTaken calls = some (offered c).length := by
  have h := processWrite_prepared hp
  rw [← h.whole]
  exact handed_from h rfl rfl rfl hv hfin

/-- A connection to be kept, a file of two bytes: a `writev` refused, then one that takes all. -/
theorem handed_iff_run :
    let c := (processWrite (request true [97, 98] []) .fileRequest).1
    (machine.run (start c) [[.again], [.took 64]]).handed =
        c.writeBuf.take c.writeIdx ++
          (if HttpCode.fileRequest = .fileRequest then [97, 98] else []) ↔
      firstTaken [[.again], [.took 64]] = some (offered c).length := by
  intro c
  have hbound : 64 ≤ (offered c).length := by decide +kernel
  refine handed_iff true [97, 98] [] .fileRequest c (by decide +kernel) _ ⟨?_, ?_, trivial⟩
    (by decide +kernel)
  · exact ⟨rfl, by decide +kernel, fun n hn => by simp at hn⟩
  · refine ⟨by decide +kernel, by decide +kernel, fun n hn => ?_⟩
    obtain rfl : n = 64 := by simpa using hn
    exact ⟨by decide, hbound⟩

/-- The socket takes the header of a response and no more; the response counts as sent. -/
theorem not_handed :
    let c := (processWrite (request false [97, 98] []) .fileRequest).1
    let calls := [[Writev.took c.writeIdx]]
    processWrite (request false [97, 98] []) .fileRequest = (c, true) ∧
      machine.Valid (start c) calls ∧ Finished (machine.run (start c) calls) ∧
      (machine.run (start c) calls).handed ≠ c.writeBuf.take c.writeIdx ++ [97, 98] := by
  intro c calls
  have hpos : 1 ≤ c.writeIdx := by decide +kernel
  have hbound : c.writeIdx ≤ (offered c).length := by decide +kernel
  refine ⟨by decide +kernel, ⟨⟨rfl, by decide +kernel, fun n hn => ?_⟩, trivial⟩,
    by decide +kernel, by decide +kernel⟩
  obtain rfl : n = c.writeIdx := by simpa [calls] using hn
  exact ⟨hpos, hbound⟩

end HttpConnWrite
end Unpvol1
