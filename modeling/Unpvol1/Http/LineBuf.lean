import Unpvol1.Lib.CString
import Unpvol1.Lib.LineScan

/-!
# Http.LineBuf

The read buffer of the HTTP parsers and `parse_line`, which is the same code in
`8-3httpparser.cpp` and `15-5http_conn.cpp`.

* `LineBuf` — `buffer`, `read_index`, `checked_index`, `start_line`.
* `parseLine` — the line scanner; a complete line gets its CR LF overwritten with NULs.
* `receive` — what `recv` appends at `read_index`.
* `parseLine_eq` — the scanner is `scan` on the bytes ahead of `checked_index`.
* `parseLine_receive_closed`, `parseLine_receive_open` — what comes later does not change a line or
  a line error, and an unfinished line is scanned on from where the scanner stopped.
-/

namespace Unpvol1.Http

structure LineBuf where
  readBuf : List UInt8
  readIdx : Nat
  checkedIdx : Nat
  startLine : Nat
  deriving DecidableEq, Repr

inductive LineStatus where
  | lineOk
  | lineBad
  | lineOpen
  deriving DecidableEq, Repr

namespace LineBuf

/-- A buffer of `size` bytes after `memset`, with nothing read. -/
def cleared (size : Nat) : LineBuf :=
  { readBuf := List.replicate size 0, readIdx := 0, checkedIdx := 0, startLine := 0 }

def byte (b : LineBuf) (i : Nat) : UInt8 := b.readBuf.getD i 0

/-- Two bytes set to NUL and the scanner behind them. -/
def endLine (b : LineBuf) (k : Nat) : LineBuf :=
  { b with readBuf := (b.readBuf.set k 0).set (k + 1) 0, checkedIdx := k + 2 }

def skip (b : LineBuf) (n : Nat) : LineBuf := { b with checkedIdx := b.checkedIdx + n }

/-- The `for` loop of `parse_line`; the counter is the distance to `read_index`. -/
def parseLineLoop : Nat → LineBuf → LineStatus × LineBuf
  | 0, b => (.lineOpen, b)
  | n + 1, b =>
    let temp := b.byte b.checkedIdx
    if temp = cr then
      if b.checkedIdx + 1 = b.readIdx then (.lineOpen, b)
      else if b.byte (b.checkedIdx + 1) = lf then (.lineOk, b.endLine b.checkedIdx)
      else (.lineBad, b)
    else if temp = lf then
      if 1 < b.checkedIdx ∧ b.byte (b.checkedIdx - 1) = cr then
        (.lineOk, b.endLine (b.checkedIdx - 1))
      else (.lineBad, b)
    else parseLineLoop n (b.skip 1)

def parseLine (b : LineBuf) : LineStatus × LineBuf :=
  parseLineLoop (b.readIdx - b.checkedIdx) b

/-- `recv` into `buffer + read_index`, and `read_index += bytes_read`. -/
def receive (b : LineBuf) (chunk : List UInt8) : LineBuf :=
  { b with
    readBuf := overwrite b.readBuf b.readIdx chunk
    readIdx := b.readIdx + chunk.length }

/-- The bytes read and not yet checked. -/
def ahead (b : LineBuf) : List UInt8 := (b.readBuf.take b.readIdx).drop b.checkedIdx

/-- The indices are in order, and the scanner never stands behind a CR. -/
structure Wf (b : LineBuf) : Prop where
  start_le : b.startLine ≤ b.checkedIdx
  checked_le : b.checkedIdx ≤ b.readIdx
  read_le : b.readIdx ≤ b.readBuf.length
  no_cr : ∀ i, b.checkedIdx = i + 1 → b.byte i ≠ cr

theorem cleared_wf (size : Nat) : (cleared size).Wf where
  start_le := Nat.le_refl 0
  checked_le := Nat.le_refl 0
  read_le := Nat.zero_le _
  no_cr := fun i h => absurd h (Nat.succ_ne_zero i).symm

/-! ## The bytes ahead -/

section Ahead

variable {b : LineBuf} {w c : List UInt8} {x : UInt8}

theorem ahead_length (h : b.Wf) : b.ahead.length = b.readIdx - b.checkedIdx := by
  have := h.read_le
  rw [ahead, List.length_drop, List.length_take]
  omega

theorem ahead_skip (b : LineBuf) (n : Nat) : (b.skip n).ahead = b.ahead.drop n := by
  simp only [ahead, skip, List.drop_drop]

theorem ahead_cons (hr : b.readIdx ≤ b.readBuf.length) (hc : b.checkedIdx < b.readIdx) :
    b.ahead = b.byte b.checkedIdx :: (b.skip 1).ahead := by
  have hlt : b.checkedIdx < (b.readBuf.take b.readIdx).length := by
    rw [List.length_take]
    omega
  have hbyte : b.readBuf[b.checkedIdx]? = some b.readBuf[b.checkedIdx] :=
    List.getElem?_eq_getElem (by omega)
  rw [ahead_skip, ahead, List.drop_drop, List.drop_eq_getElem_cons hlt, List.getElem_take, byte,
    List.getD_eq_getElem?_getD, hbyte]
  rfl

theorem ahead_receive (h : b.Wf) (c : List UInt8) : (b.receive c).ahead = b.ahead ++ c := by
  have h1 := h.checked_le
  have h2 := h.read_le
  have htake : (b.readBuf.take b.readIdx).length = b.readIdx := by
    rw [List.length_take]
    omega
  have hlen : (b.readBuf.take b.readIdx ++ c).length = b.readIdx + c.length := by
    rw [List.length_append, htake]
  have hall : (b.receive c).readBuf.take (b.receive c).readIdx = b.readBuf.take b.readIdx ++ c :=
    take_overwrite h2
  rw [ahead, hall, List.drop_append_of_le_length (htake.symm ▸ h1)]
  rfl

/-- A complete line ahead lies within what has been read. -/
theorem readIdx_of_line (h : b.Wf) {l r : List UInt8} (ha : b.ahead = l ++ cr :: lf :: r) :
    b.readIdx = b.checkedIdx + l.length + 2 + r.length := by
  have hlen := ahead_length h
  have hle := h.checked_le
  rw [ha, List.length_append, List.length_cons, List.length_cons] at hlen
  omega

end Ahead

/-! ## The scanner -/

/-- What `parse_line` makes of a scan. -/
def scanned (b : LineBuf) : Scan → LineStatus × LineBuf
  | .line l _ => (.lineOk, b.endLine (b.checkedIdx + l.length))
  | .tail (.pending l _) => (.lineOpen, b.skip l.length)
  | .tail (.stray l _) => (.lineBad, b.skip l.length)

section Scanner

variable {b b' : LineBuf} {c : List UInt8}

theorem scanned_prepend (b : LineBuf) (p : List UInt8) (s : Scan) :
    b.scanned (s.prepend p) = (b.skip p.length).scanned s := by
  match s with
  | .line l _ =>
    simp only [Scan.prepend, scanned, List.length_append, skip, endLine, Nat.add_assoc]
  | .tail (.pending l _) =>
    simp only [Scan.prepend, Tail.prepend, scanned, List.length_append, skip, Nat.add_assoc]
  | .tail (.stray l _) =>
    simp only [Scan.prepend, Tail.prepend, scanned, List.length_append, skip, Nat.add_assoc]

/-- The loop is a scan. The branch that looks back for a CR is never taken, since the scanner never
stands behind one. -/
theorem parseLineLoop_eq (n : Nat) (b : LineBuf) (hn : b.readIdx = b.checkedIdx + n)
    (hr : b.readIdx ≤ b.readBuf.length) (hcr : ∀ i, b.checkedIdx = i + 1 → b.byte i ≠ cr) :
    parseLineLoop n b = b.scanned (scan b.ahead) := by
  induction n generalizing b with
  | zero =>
    have hnil : b.ahead = [] := by
      apply List.eq_nil_of_length_eq_zero
      rw [ahead, List.length_drop, List.length_take]
      omega
    rw [hnil]
    rfl
  | succ n ih =>
    have hlt : b.checkedIdx < b.readIdx := by omega
    rw [ahead_cons hr hlt]
    simp only [parseLineLoop]
    by_cases h1 : b.byte b.checkedIdx = cr
    · rw [if_pos h1]
      by_cases h2 : b.checkedIdx + 1 = b.readIdx
      · have hnil : (b.skip 1).ahead = [] := by
          apply List.eq_nil_of_length_eq_zero
          rw [ahead_skip, List.length_drop, ahead, List.length_drop, List.length_take]
          omega
        rw [if_pos h2, hnil, h1]
        rfl
      · have hcons := ahead_cons (b := b.skip 1) hr (by simp only [skip]; omega)
        rw [if_neg h2, hcons, h1]
        have hbyte : (b.skip 1).byte (b.skip 1).checkedIdx = b.byte (b.checkedIdx + 1) := rfl
        rw [hbyte]
        by_cases h3 : b.byte (b.checkedIdx + 1) = lf
        · rw [if_pos h3, h3]
          rfl
        · rw [if_neg h3]
          simp only [scan, if_true, h3, if_false]
          rfl
    · rw [if_neg h1]
      by_cases h2 : b.byte b.checkedIdx = lf
      · have h3 : ¬ (1 < b.checkedIdx ∧ b.byte (b.checkedIdx - 1) = cr) := by
          rintro ⟨hpos, hback⟩
          exact hcr (b.checkedIdx - 1) (by omega) hback
        rw [if_pos h2, if_neg h3, h2]
        rfl
      · rw [if_neg h2, ih (b.skip 1) (by simp only [skip]; omega) hr]
        · simp only [scan, h1, h2, if_false]
          rw [scanned_prepend]
          rfl
        · intro i hi
          simp only [skip] at hi
          have hback : i = b.checkedIdx := by omega
          rw [hback]
          exact h1

theorem parseLine_eq (h : b.Wf) : b.parseLine = b.scanned (scan b.ahead) :=
  parseLineLoop_eq _ b (by have := h.checked_le; omega) h.read_le h.no_cr

/-! ## What the scanner leaves -/

theorem endLine_wf (h : b.Wf) (k : Nat) (hk : b.startLine ≤ k + 2) (hle : k + 2 ≤ b.readIdx) :
    (b.endLine k).Wf where
  start_le := hk
  checked_le := hle
  read_le := by
    have := h.read_le
    simp only [endLine, List.length_set]
    exact this
  no_cr := by
    intro i hi hcr
    have hi : k + 2 = i + 1 := hi
    have hlen := h.read_le
    have hzero : (b.endLine k).byte i = 0 := by
      have hik : i = k + 1 := by omega
      rw [byte, endLine, hik, List.getD_eq_getElem?_getD, List.getElem?_set_self]
      · rfl
      · rw [List.length_set]
        omega
    rw [hzero] at hcr
    exact absurd hcr (by decide)

theorem endLine_ahead (b : LineBuf) (k : Nat) :
    (b.endLine k).ahead = (b.readBuf.take b.readIdx).drop (k + 2) := by
  simp only [ahead, endLine, List.take_set, List.drop_set]
  rw [if_pos (by omega), if_pos (by omega)]

/-- Behind a complete line comes the rest. -/
theorem endLine_ahead_of_line {l r : List UInt8} (ha : b.ahead = l ++ cr :: lf :: r) :
    (b.endLine (b.checkedIdx + l.length)).ahead = r := by
  have hdrop : b.ahead.drop (l.length + 2) = r := by
    rw [ha, ← List.drop_drop, List.drop_left]
    rfl
  rw [endLine_ahead, Nat.add_assoc, ← List.drop_drop]
  exact hdrop

theorem skip_wf (h : b.Wf) {l r : List UInt8} (hl : Clean l) (ha : b.ahead = l ++ r) :
    (b.skip l.length).Wf where
  start_le := Nat.le_trans h.start_le (Nat.le_add_right _ _)
  checked_le := by
    have hlen := ahead_length h
    have := h.checked_le
    rw [ha, List.length_append] at hlen
    simp only [skip]
    omega
  read_le := h.read_le
  no_cr := by
    intro i hi
    have hi : b.checkedIdx + l.length = i + 1 := hi
    rcases List.eq_nil_or_concat l with rfl | ⟨m, x, rfl⟩
    · exact h.no_cr i hi
    · -- the byte before is the last one passed over
      have hx : (b.skip 0).byte i = x := by
        rw [List.concat_eq_append, List.length_append, List.length_singleton] at hi
        have hget : (b.readBuf.take b.readIdx)[i]? = some x := by
          have hi' : i = b.checkedIdx + m.length := by omega
          rw [hi', ← List.getElem?_drop]
          have hd : (b.readBuf.take b.readIdx).drop b.checkedIdx = m ++ x :: r := by
            rw [List.concat_eq_append, List.append_assoc] at ha
            exact ha
          rw [hd, List.getElem?_append_right (Nat.le_refl _), Nat.sub_self]
          rfl
        have hbuf : b.readBuf[i]? = some x := by
          rw [List.getElem?_take] at hget
          split at hget
          · exact hget
          · cases hget
        simp only [byte, skip, List.getD_eq_getElem?_getD]
        rw [hbuf]
        rfl
      have hmem : x ∈ m.concat x := by
        rw [List.concat_eq_append]
        exact List.mem_append_right _ List.mem_cons_self
      intro hcr
      exact (hl x hmem).1 (hx.symm.trans hcr)

/-- One call of `parse_line`, by what it returns. -/
theorem parseLine_cases (h : b.Wf) :
    (∃ l r, b.ahead = l ++ cr :: lf :: r ∧ Clean l ∧
      b.parseLine = (.lineOk, b.endLine (b.checkedIdx + l.length))) ∨
    (∃ l held, b.ahead = l ++ Tail.heldBytes held ∧ Clean l ∧
      b.parseLine = (.lineOpen, b.skip l.length)) ∨
    (∃ l r, b.ahead = l ++ r ∧ Clean l ∧ Stray r ∧ b.parseLine = (.lineBad, b.skip l.length)) := by
  rw [parseLine_eq h]
  cases hs : scan b.ahead with
  | line l r =>
    obtain ⟨ha, hl⟩ := scan_eq_line.mp hs
    exact .inl ⟨l, r, ha, hl, rfl⟩
  | tail t =>
    obtain ⟨ha, ht⟩ := scan_eq_tail.mp hs
    cases t with
    | pending l held => exact .inr (.inl ⟨l, held, ha, ht, rfl⟩)
    | stray l r => exact .inr (.inr ⟨l, r, ha, ht.1, ht.2, rfl⟩)

end Scanner

/-! ## More bytes -/

section Receive

variable {b b' : LineBuf} {c : List UInt8}

theorem receive_byte (hr : b.readIdx ≤ b.readBuf.length) {i : Nat} (hi : i < b.readIdx) :
    (b.receive c).byte i = b.byte i := by
  have hlen : i < (b.readBuf.take b.readIdx).length := by
    rw [List.length_take]
    omega
  simp only [byte, receive, overwrite, List.getD_eq_getElem?_getD]
  rw [List.append_assoc, List.getElem?_append_left hlen, List.getElem?_take_of_lt hi]

theorem receive_wf (h : b.Wf) (c : List UInt8) : (b.receive c).Wf where
  start_le := h.start_le
  checked_le := Nat.le_trans h.checked_le (Nat.le_add_right _ _)
  read_le := by
    simp only [receive]
    rw [overwrite_length h.read_le]
    exact Nat.le_max_right _ _
  no_cr := by
    intro i hi
    have hlt : i < b.readIdx := by
      have := h.checked_le
      have hi : b.checkedIdx = i + 1 := hi
      omega
    rw [receive_byte h.read_le hlt]
    exact h.no_cr i hi

/-- What fits leaves the size of the buffer. -/
theorem receive_size (h : b.readIdx + c.length ≤ b.readBuf.length) :
    (b.receive c).readBuf.length = b.readBuf.length := overwrite_length_within h

theorem receive_nil (b : LineBuf) : b.receive [] = b := by
  simp only [receive, overwrite_nil, List.length_nil, Nat.add_zero]

/-- Two chunks are one. -/
theorem receive_receive (hr : b.readIdx ≤ b.readBuf.length) (x y : List UInt8) :
    (b.receive x).receive y = b.receive (x ++ y) := by
  simp only [receive, overwrite_overwrite hr, List.length_append, Nat.add_assoc]

theorem endLine_receive (hr : b.readIdx ≤ b.readBuf.length) {k : Nat} (hk : k + 1 < b.readIdx) :
    (b.receive c).endLine k = (b.endLine k).receive c := by
  have hset : b.readIdx ≤ (b.readBuf.set k 0).length := by
    rw [List.length_set]
    exact hr
  simp only [endLine, receive]
  rw [overwrite_set hr (by omega), overwrite_set hset hk]

/-- What comes later does not change a line or a line error. -/
theorem parseLine_receive_closed (h : b.Wf) {st : LineStatus} (hst : st ≠ .lineOpen)
    (hp : b.parseLine = (st, b')) (c : List UInt8) :
    (b.receive c).parseLine = (st, b'.receive c) := by
  rw [parseLine_eq h] at hp
  rw [parseLine_eq (receive_wf h c), ahead_receive h]
  cases hs : scan b.ahead with
  | line l r =>
    rw [hs] at hp
    cases hp
    have hlen := readIdx_of_line h (scan_eq_line.mp hs).1
    rw [scan_line_append hs]
    show (LineStatus.lineOk, _) = _
    rw [← endLine_receive h.read_le (by omega)]
    rfl
  | tail t =>
    rw [hs] at hp
    cases t with
    | pending l held =>
      cases hp
      exact absurd rfl hst
    | stray l r =>
      cases hp
      rw [scan_stray_append hs]
      rfl

/-- An unfinished line is scanned on from where the scanner stopped. -/
theorem parseLine_receive_open (h : b.Wf) (hp : b.parseLine = (.lineOpen, b')) (c : List UInt8) :
    (b.receive c).parseLine = (b'.receive c).parseLine := by
  rcases parseLine_cases h with ⟨l, r, _, _, he⟩ | ⟨l, held, ha, hl, he⟩ | ⟨l, r, _, _, _, he⟩
  · rw [he] at hp
    cases hp
  · rw [he] at hp
    cases hp
    have hw := skip_wf h hl ha
    rw [parseLine_eq (receive_wf h c), parseLine_eq (receive_wf hw c), ahead_receive h,
      ahead_receive hw, ahead_skip, ha, List.drop_left, List.append_assoc, scan_clean_append hl,
      scanned_prepend]
    rfl
  · rw [he] at hp
    cases hp

end Receive

end LineBuf
end Unpvol1.Http
