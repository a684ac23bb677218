import Unpvol1.Http.HttpConnHead

/-!
# Http.HttpConnBody

`process_read` in `CHECK_STATE_CONTENT`. While the body is incomplete the loop calls `parse_line`,
which runs over the body and moves `m_checked_idx`; the next call counts the content length from
there.

* `takeText_incomplete`, `takeText_overflow`, `takeText_complete` — one look at the body.
* `parseReadLoop_wait` — the loop while the body is incomplete.
* `InBody` — the connection between two calls, by what of the body has been read; `body_call` — one
  call.
-/

namespace Unpvol1.HttpConn

open Http

section Body

variable {q : Conn} {b : LineBuf} {m : Members}

/-- The body is not complete. -/
theorem takeText_incomplete (hs : m.checkState = .content)
    (hlt : (b.readIdx : Int) < m.contentLength + b.checkedIdx)
    (hsmall : m.contentLength + b.checkedIdx < 2 ^ 31) :
    takeText b m =
      (none, .lineOpen, { line := { b with startLine := b.checkedIdx }, state := m }) := by
  have hp : parseContent { b with startLine := b.checkedIdx } b.startLine m =
      some (.noRequest, b.readBuf) := by
    rw [parseContent, if_neg (Int.not_le.mpr hsmall), if_neg (Int.not_le.mpr hlt)]
  simp only [takeText, hs, hp]
  rfl

theorem takeText_overflow (hs : m.checkState = .content)
    (hbig : 2 ^ 31 ≤ m.contentLength + b.checkedIdx) :
    takeText b m = (some .undefined, .lineOk,
      { line := { b with startLine := b.checkedIdx }, state := m }) := by
  have hp : parseContent { b with startLine := b.checkedIdx } b.startLine m = none := by
    rw [parseContent, if_pos hbig]
  simp only [takeText, hs, hp]

/-- The body is complete: its end is marked with a NUL, if that is within the buffer. -/
theorem takeText_complete (hs : m.checkState = .content)
    (hle : m.contentLength + b.checkedIdx ≤ b.readIdx)
    (hsmall : m.contentLength + b.checkedIdx < 2 ^ 31) :
    takeText b m =
      if 0 ≤ b.startLine + m.contentLength ∧
          b.startLine + m.contentLength < b.readBuf.length then
        (some .doRequest, .lineOpen,
          { line := { b with
              readBuf := b.readBuf.set (b.startLine + m.contentLength).toNat 0
              startLine := b.checkedIdx }, state := m })
      else (some .undefined, .lineOk,
        { line := { b with startLine := b.checkedIdx }, state := m }) := by
  have hp : parseContent { b with startLine := b.checkedIdx } b.startLine m =
      if 0 ≤ b.startLine + m.contentLength ∧ b.startLine + m.contentLength < b.readBuf.length then
        some (.getRequest, b.readBuf.set (b.startLine + m.contentLength).toNat 0) else none := by
    rw [parseContent, if_neg (Int.not_le.mpr hsmall), if_pos hle]
  simp only [takeText, hs, hp]
  split
  · rename_i h
    split at h
    · cases h
    · rename_i hn
      rw [if_neg hn]
  · rename_i ret buf h
    split at h
    · rename_i hy
      cases h
      rw [if_pos hy]
      rfl
    · cases h

theorem setStart_wf (hw : b.Wf) {s : Nat} (hs : s ≤ b.checkedIdx) :
    ({ b with startLine := s } : LineBuf).Wf where
  start_le := hs
  checked_le := hw.checked_le
  read_le := hw.read_le
  no_cr := hw.no_cr

/-- What a call that waits for the rest of the body leaves: the scanner has run over complete lines
and clean bytes, and everything before it is as it was. -/
structure Waits (q q' : Conn) : Prop where
  wf : q'.line.Wf
  state : q'.state = q.state
  read : q'.line.readIdx = q.line.readIdx
  size : q'.line.readBuf.length = q.line.readBuf.length
  checked : q'.line.checkedIdx = q.line.checkedIdx + lineRun q.line.ahead
  ahead : q'.line.ahead = q.line.ahead.drop (lineRun q.line.ahead)
  start : q.line.startLine ≤ q'.line.startLine
  front : q'.line.readBuf.take q.line.checkedIdx = q.line.readBuf.take q.line.checkedIdx

/-- The buffer behind a line. -/
theorem endLine_facts (hw : q.line.Wf) {l r : List UInt8} (ha : q.line.ahead = l ++ cr :: lf :: r)
    (hb : b = q.line.endLine (q.line.checkedIdx + l.length)) :
    b.Wf ∧ b.checkedIdx = q.line.checkedIdx + l.length + 2 ∧ b.readIdx = q.line.readIdx ∧
      b.ahead = r ∧ b.readBuf.take q.line.checkedIdx = q.line.readBuf.take q.line.checkedIdx := by
  subst hb
  have hlen := LineBuf.readIdx_of_line hw ha
  have hstart := hw.start_le
  refine ⟨LineBuf.endLine_wf hw _ (by omega) (by omega), rfl, rfl,
    LineBuf.endLine_ahead_of_line ha, ?_⟩
  simp only [LineBuf.endLine]
  rw [List.take_set_of_le (by omega), List.take_set_of_le (by omega)]

/-- Waiting behind a line is waiting before it. -/
theorem Waits.line (hw : q.line.Wf) {l r : List UInt8} (ha : q.line.ahead = l ++ cr :: lf :: r)
    (hl : Clean l) (hb : b = q.line.endLine (q.line.checkedIdx + l.length)) {q' : Conn}
    (h : Waits { line := { b with startLine := b.checkedIdx }, state := q.state } q') :
    Waits q q' := by
  obtain ⟨hwb, hcb, hrb, hab, hfront⟩ := endLine_facts hw ha hb
  have hahead : ({ b with startLine := b.checkedIdx } : LineBuf).ahead = r := hab
  have hrun : lineRun q.line.ahead = l.length + 2 + lineRun r := by
    rw [ha, lineRun_line hl]
  have hdrop : q.line.ahead.drop (l.length + 2) = r := by
    rw [ha, ← List.drop_drop, List.drop_left]
    rfl
  refine ⟨h.wf, h.state, h.read.trans hrb, ?_, ?_, ?_, ?_, ?_⟩
  · rw [h.size, hb]
    simp only [LineBuf.endLine, List.length_set]
  · rw [h.checked, hahead, hrun]
    show b.checkedIdx + _ = _
    omega
  · rw [h.ahead, hahead, hrun, ← List.drop_drop, hdrop]
  · have hs : b.checkedIdx ≤ q'.line.startLine := h.start
    have hstart := hw.start_le
    omega
  · have hf : q'.line.readBuf.take b.checkedIdx = b.readBuf.take b.checkedIdx := h.front
    have hle : q.line.checkedIdx ≤ b.checkedIdx := by omega
    have hcut := congrArg (List.take q.line.checkedIdx) hf
    rw [List.take_take, List.take_take, Nat.min_eq_left hle] at hcut
    exact hcut.trans hfront

theorem Waits.tail (hw : q.line.Wf) {t : Tail} (ha : q.line.ahead = t.bytes) (ht : t.Wf) :
    Waits q { q with line := q.line.skip t.clean.length } := by
  have hrun : lineRun q.line.ahead = t.clean.length := by
    rw [ha, lineRun_tail ht]
  obtain ⟨b, hb, hclean⟩ : ∃ b, t.bytes = t.clean ++ b ∧ Clean t.clean := by
    cases t with
    | pending l held => exact ⟨Tail.heldBytes held, rfl, ht⟩
    | stray l rest => exact ⟨rest, rfl, ht.1⟩
  refine ⟨LineBuf.skip_wf hw hclean (ha.trans hb), rfl, rfl, rfl, ?_, ?_, Nat.le_refl _, rfl⟩
  · rw [hrun]
    rfl
  · rw [hrun]
    exact LineBuf.ahead_skip _ _

/-- The loop after the look at an incomplete body: it goes on looking behind each line of the body,
until none is left or the sum overflows. -/
theorem parseReadLoop_wait (n : Nat) (q : Conn) (hn : q.line.ahead.length = n) (hw : q.line.Wf)
    (hs : q.state.checkState = .content)
    (hlt : (q.line.readIdx : Int) < q.state.contentLength + q.line.checkedIdx)
    (hsmall : q.state.contentLength + q.line.checkedIdx < 2 ^ 31) (fuel : Nat)
    (hf : n + 1 ≤ fuel) :
    (2 ^ 31 ≤ q.state.contentLength + q.line.checkedIdx + linesLength q.line.ahead →
      (parseReadLoop fuel .lineOpen q).1 = .undefined) ∧
    (q.state.contentLength + q.line.checkedIdx + linesLength q.line.ahead < 2 ^ 31 →
      ∃ q', parseReadLoop fuel .lineOpen q = (.code .noRequest, q') ∧ Waits q q' ∧
        (q.line.startLine = q.line.checkedIdx →
          q'.line.startLine = q.line.checkedIdx + linesLength q.line.ahead)) := by
  induction n using Nat.strongRecOn generalizing q fuel with
  | _ n ih =>
    obtain ⟨fuel, rfl⟩ : ∃ k, fuel = k + 1 := ⟨fuel - 1, by omega⟩
    have hnext : nextText .lineOpen q = q.line.parseLine := if_neg fun h => (nomatch h.2)
    simp only [parseReadLoop, hnext]
    rcases LineBuf.parseLine_cases hw with ⟨l, r, ha, hl, hp⟩ | ⟨l, held, ha, hl, hp⟩ |
      ⟨l, r, ha, hl, hr, hp⟩
    · have hlen := LineBuf.readIdx_of_line hw ha
      have hnlen : n = l.length + 2 + r.length := by
        rw [← hn, ha, List.length_append, List.length_cons, List.length_cons]
        omega
      have hlines : linesLength q.line.ahead = l.length + 2 + linesLength r := by
        rw [ha, linesLength_line hl]
      obtain ⟨b, hb⟩ : ∃ b, b = q.line.endLine (q.line.checkedIdx + l.length) := ⟨_, rfl⟩
      obtain ⟨hwb, hcb, hrb, hab, hfront⟩ := endLine_facts hw ha hb
      rw [← hb] at hp
      simp only [hp]
      by_cases hbig : 2 ^ 31 ≤ q.state.contentLength + b.checkedIdx
      · rw [takeText_overflow hs hbig]
        refine ⟨fun _ => rfl, fun h => ?_⟩
        omega
      · rw [takeText_incomplete hs (by omega) (by omega)]
        obtain ⟨h1, h2⟩ := ih r.length (by omega)
          { line := { b with startLine := b.checkedIdx }, state := q.state }
          (congrArg List.length hab) (setStart_wf hwb (Nat.le_refl _)) hs
          (show (b.readIdx : Int) < q.state.contentLength + b.checkedIdx by omega)
          (show q.state.contentLength + b.checkedIdx < 2 ^ 31 by omega) fuel (by omega)
        have hahead : ({ b with startLine := b.checkedIdx } : LineBuf).ahead = r := hab
        simp only [hahead] at h1 h2
        refine ⟨fun h => h1 (by omega), fun h => ?_⟩
        obtain ⟨q', hq', hwait, hstart⟩ := h2 (by omega)
        refine ⟨q', hq', Waits.line hw ha hl hb hwait, fun _ => ?_⟩
        rw [hstart trivial]
        show b.checkedIdx + _ = _
        omega
    · have hlines : linesLength q.line.ahead = 0 := by
        rw [ha]
        exact linesLength_tail (t := .pending l held) hl
      simp only [hp]
      refine ⟨fun h => by omega, fun _ => ⟨_, rfl, ?_, fun hstart => ?_⟩⟩
      · exact Waits.tail hw (t := .pending l held) ha hl
      · rw [hlines]
        exact hstart
    · have hlines : linesLength q.line.ahead = 0 := by
        rw [ha]
        exact linesLength_tail (t := .stray l r) ⟨hl, hr⟩
      simp only [hp]
      refine ⟨fun h => by omega, fun _ => ⟨_, rfl, ?_, fun hstart => ?_⟩⟩
      · exact Waits.tail hw (t := .stray l r) ha ⟨hl, hr⟩
      · rw [hlines]
        exact hstart

end Body

/-! ## Calls -/

/-- What one call does about a body of length `n` behind `k` bytes of head, when `x₀` of the body
was there before the call and `x` is there now. -/
def bodyTest (k : Nat) (n : Int) (x₀ x : List UInt8) : Outcome :=
  if 2 ^ 31 ≤ n + k + lineRun x₀ then .undefined
  else if n + lineRun x₀ ≤ x.length then .doRequest
  else if 2 ^ 31 ≤ n + k + lineRun x₀ + linesLength (x.drop (lineRun x₀)) then .undefined
  else .code .noRequest

/-- What each outcome says about the body. -/
theorem bodyTest_spec (k : Nat) (n : Int) (x₀ x : List UInt8) :
    (bodyTest k n x₀ x = .undefined →
      2 ^ 31 ≤ n + k + lineRun x₀ + linesLength (x.drop (lineRun x₀))) ∧
    (bodyTest k n x₀ x = .doRequest → n + lineRun x₀ ≤ x.length) ∧
    (bodyTest k n x₀ x = .code .noRequest → x.length < n + lineRun x₀ ∧
      n + k + lineRun x₀ + linesLength (x.drop (lineRun x₀)) < 2 ^ 31) := by
  simp only [bodyTest]
  split
  · exact ⟨fun _ => by omega, nofun, nofun⟩
  · split
    · exact ⟨nofun, fun _ => by assumption, nofun⟩
    · split
      · exact ⟨fun _ => by assumption, nofun, nofun⟩
      · exact ⟨nofun, nofun, fun _ => ⟨by omega, by omega⟩⟩

/-- The connection when the head `h`, as the buffer has it, and `x` of the body have been read, and
the scanner has run over `x₀`. -/
structure InBody (h : List UInt8) (m : Members) (x₀ x : List UInt8) (q : Conn) : Prop where
  wf : q.line.Wf
  state : q.state = m
  front : q.line.readBuf.take h.length = h
  checked : q.line.checkedIdx = h.length + lineRun x₀
  read : q.line.readIdx = h.length + x.length
  ahead : q.line.ahead = x.drop (lineRun x₀)
  start : h.length ≤ q.line.startLine
  size : q.line.readBuf.length = readBufferSize

section Calls

variable {h : List UInt8} {m : Members} {x₀ x c : List UInt8} {q : Conn}

theorem InBody.receive (hq : InBody h m x₀ x q) (c : List UInt8)
    (hfit : h.length + (x ++ c).length ≤ readBufferSize) :
    InBody h m x₀ (x ++ c) (q.receive c) := by
  have hlen := hq.wf.read_le
  have hsize := hq.size
  have hread := hq.read
  rw [List.length_append] at hfit
  refine ⟨LineBuf.receive_wf hq.wf c, hq.state, ?_, hq.checked, ?_, ?_, hq.start, ?_⟩
  · have hle : h.length ≤ q.line.readIdx := by omega
    exact (take_overwrite_of_le hlen hle).trans hq.front
  · show q.line.readIdx + c.length = _
    rw [hq.read, List.length_append, Nat.add_assoc]
  · show (q.line.receive c).ahead = _
    have hrun : lineRun x₀ ≤ x.length := by
      have hck := hq.checked
      have hcl := hq.wf.checked_le
      omega
    rw [LineBuf.ahead_receive hq.wf, hq.ahead, List.drop_append_of_le_length hrun]
  · have hsize := hq.size
    rw [← hsize]
    exact LineBuf.receive_size (by omega)

/-- The body scanned to its end is where the next call finds the scanner. -/
theorem InBody.of_waits (hq : InBody h m x₀ x q) (hpre : ∃ c, x = x₀ ++ c) {q' : Conn}
    (hwait :
      Waits { line := { q.line with startLine := q.line.checkedIdx }, state := q.state } q') :
    InBody h m x x q' := by
  obtain ⟨c, rfl⟩ := hpre
  have hchecked := hq.checked
  have hrun := (lineRun_append x₀ c).1
  have hahead : ({ q.line with startLine := q.line.checkedIdx } : LineBuf).ahead =
      (x₀ ++ c).drop (lineRun x₀) := hq.ahead
  refine ⟨hwait.wf, hwait.state.trans hq.state, ?_, ?_, ?_, ?_, ?_, ?_⟩
  · have hf : q'.line.readBuf.take q.line.checkedIdx = q.line.readBuf.take q.line.checkedIdx :=
      hwait.front
    have hcut := congrArg (List.take h.length) hf
    rw [List.take_take, List.take_take, Nat.min_eq_left (by omega)] at hcut
    exact hcut.trans hq.front
  · have hc := hwait.checked
    simp only [hahead] at hc
    rw [hc, hrun]
    omega
  · exact hwait.read.trans hq.read
  · have ha := hwait.ahead
    simp only [hahead] at ha
    rw [List.drop_drop, ← hrun] at ha
    exact ha
  · have hst : q.line.checkedIdx ≤ q'.line.startLine := hwait.start
    omega
  · exact hwait.size.trans hq.size

/-- One call, with passes enough: in a full buffer the end of the body may be behind it. -/
theorem body_look (hq : InBody h m x₀ x q) (hs : m.checkState = .content)
    (hn : 0 < m.contentLength) (hpre : ∃ c, x = x₀ ++ c) (fuel : Nat)
    (hf : q.line.ahead.length + 2 ≤ fuel) :
    (bodyTest h.length m.contentLength x₀ x = .undefined ∧
      (parseReadLoop fuel .lineOk q).1 = .undefined) ∨
    (bodyTest h.length m.contentLength x₀ x = .doRequest ∧
      (readBufferSize ≤ q.line.startLine + m.contentLength →
        (parseReadLoop fuel .lineOk q).1 = .undefined) ∧
      (q.line.startLine + m.contentLength < readBufferSize → ∃ q',
        parseReadLoop fuel .lineOk q = (.doRequest, q') ∧ q'.state = m ∧
          q'.line.readBuf.take h.length = h)) ∨
    (bodyTest h.length m.contentLength x₀ x = .code .noRequest ∧ ∃ q',
      parseReadLoop fuel .lineOk q = (.code .noRequest, q') ∧ InBody h m x x q' ∧
        q'.line.startLine = h.length + lineRun x₀ + linesLength (x.drop (lineRun x₀))) := by
  obtain ⟨fuel, rfl⟩ : ∃ k, fuel = k + 1 := ⟨fuel - 1, by omega⟩
  have hstate := hq.state
  have hsq : q.state.checkState = .content := by rw [hstate]; exact hs
  have hnext : nextText .lineOk q = (.lineOk, q.line) := if_pos ⟨hsq, rfl⟩
  have hchecked := hq.checked
  have hread := hq.read
  have hstart := hq.start
  have hsize := hq.size
  have hlen : q.state.contentLength = m.contentLength := by rw [hstate]
  simp only [parseReadLoop, hnext, bodyTest]
  by_cases hbig : 2 ^ 31 ≤ m.contentLength + h.length + lineRun x₀
  · refine .inl ⟨if_pos hbig, ?_⟩
    rw [takeText_overflow hsq (by omega)]
  rw [if_neg hbig]
  by_cases hall : m.contentLength + lineRun x₀ ≤ x.length
  · refine .inr (.inl ⟨if_pos hall, ?_⟩)
    rw [takeText_complete hsq (by omega) (by omega), hlen, hsize]
    refine ⟨fun hout => ?_, fun hin => ?_⟩
    · rw [if_neg (by omega)]
    · rw [if_pos ⟨by omega, hin⟩]
      refine ⟨_, rfl, hstate, ?_⟩
      show (q.line.readBuf.set _ 0).take h.length = h
      rw [List.take_set_of_le (by omega)]
      exact hq.front
  rw [if_neg hall]
  have hinc := takeText_incomplete (b := q.line) hsq (by omega) (by omega)
  simp only [hinc]
  -- the loop goes on behind the look at the body
  have hw' := setStart_wf hq.wf (Nat.le_refl _)
  obtain ⟨h1, h2⟩ := parseReadLoop_wait q.line.ahead.length
    { line := { q.line with startLine := q.line.checkedIdx }, state := q.state } rfl hw' hsq
    (show (q.line.readIdx : Int) < q.state.contentLength + q.line.checkedIdx by omega)
    (show q.state.contentLength + q.line.checkedIdx < 2 ^ 31 by omega) fuel (by omega)
  have ha' : ({ q.line with startLine := q.line.checkedIdx } : LineBuf).ahead =
      x.drop (lineRun x₀) := hq.ahead
  simp only [ha'] at h1 h2
  by_cases hover : 2 ^ 31 ≤ m.contentLength + h.length + lineRun x₀ +
      linesLength (x.drop (lineRun x₀))
  · exact .inl ⟨if_pos hover, h1 (by omega)⟩
  refine .inr (.inr ⟨if_neg hover, ?_⟩)
  obtain ⟨q', hq', hwait, hline⟩ := h2 (by omega)
  refine ⟨q', hq', hq.of_waits hpre hwait, ?_⟩
  rw [hline trivial, hchecked]

/-- One call, in a buffer that is not full. -/
theorem body_call (hq : InBody h m x₀ x q) (hs : m.checkState = .content)
    (hn : 0 < m.contentLength) (hfit : h.length + x.length < readBufferSize)
    (hpre : ∃ c, x = x₀ ++ c) (fuel : Nat) (hf : q.line.ahead.length + 2 ≤ fuel) :
    (bodyTest h.length m.contentLength x₀ x = .undefined ∧
      (parseReadLoop fuel .lineOk q).1 = .undefined) ∨
    (bodyTest h.length m.contentLength x₀ x = .doRequest ∧ ∃ q',
      parseReadLoop fuel .lineOk q = (.doRequest, q') ∧ q'.state = m ∧
        q'.line.readBuf.take h.length = h) ∨
    (bodyTest h.length m.contentLength x₀ x = .code .noRequest ∧ ∃ q',
      parseReadLoop fuel .lineOk q = (.code .noRequest, q') ∧ InBody h m x x q') := by
  rcases body_look hq hs hn hpre fuel hf with hund | ⟨htest, _, hdone⟩ | ⟨htest, q', hq', hin, _⟩
  · exact .inl hund
  · refine .inr (.inl ⟨htest, hdone ?_⟩)
    -- the body ends in front of what has been read
    have hfull := (bodyTest_spec _ _ _ _).2.1 htest
    have hchecked := hq.checked
    have hstart := hq.wf.start_le
    omega
  · exact .inr (.inr ⟨htest, q', hq', hin⟩)

end Calls
end Unpvol1.HttpConn
