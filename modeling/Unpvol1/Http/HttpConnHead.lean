import Unpvol1.Http.HttpConn

/-!
# Http.HttpConnHead

`process_read` up to the end of the head. Until `CHECK_STATE_CONTENT` its loop is the line loop of
`Http.LineLoop`, with `handleHead` for the two other cases of the `switch`.

* `parseRequestLine_grammar` — the texts `parse_request_line` accepts, and the URL it leaves.
* `handleHead_local`, `handleHead_reads` — it stays within the line, and reads a head whose only
  field that matters is the content length.
* `parseReadLoop_head` — the loop is the line loop, and then the content; a line error ends it
  without a result.
* `run_url` — after the request line, `m_url` points to a string within the head.
-/

namespace Unpvol1.HttpConn

open Http

inductive HeadEnd where
  | badRequest
  | doRequest
  | content
  deriving DecidableEq, Repr

def handleHead (buf : List UInt8) (text : Nat) (m : Members) : Handled Members HeadEnd :=
  match m.checkState with
  | .requestLine =>
    let (ret, buf, m) := parseRequestLine buf text m
    { readBuf := buf, state := m, result := if ret = .badRequest then some .badRequest else none }
  | .header =>
    let (ret, m) := parseHeaders buf text m
    { readBuf := buf, state := m,
      result := if ret = .getRequest then some .doRequest
        else if m.checkState = .content then some .content else none }
  | .content => { readBuf := buf, state := m, result := some .content }

/-! ## One line -/

section Line

variable {buf rest : List UInt8} {text : Nat} {m : Members}

theorem parseRequestLine_split (buf : List UInt8) (text : Nat) (m : Members) :
    (ValidRequestLine (cstr buf text) ∧ ∃ m', parseRequestLine buf text m =
      (.noRequest, (Http.parseRequestLine buf text m.version).readBuf, m') ∧
      m'.checkState = .header ∧ m'.contentLength = m.contentLength ∧
      (m.method = .get → m'.method = .get) ∧
      m'.url = (Http.parseRequestLine buf text m.version).url) ∨
    (¬ ValidRequestLine (cstr buf text) ∧ ∃ m', parseRequestLine buf text m =
      (.badRequest, (Http.parseRequestLine buf text m.version).readBuf, m') ∧
      m'.checkState = m.checkState ∧ m'.contentLength = m.contentLength ∧
      (m.method = .get → m'.method = .get)) := by
  have hv := parseRequestLine_valid buf text m.version
  have hget : ∀ b : Bool, m.method = .get → (if b = true then Method.get else m.method) = .get := by
    intro b h
    rw [h, ite_self]
  by_cases h : ValidRequestLine (cstr buf text)
  · exact .inl ⟨h, _, if_pos (hv.mpr h), rfl, rfl, hget _, rfl⟩
  · exact .inr ⟨h, _, if_neg fun h' => h (hv.mp h'), rfl, rfl, hget _⟩

/-- `parse_request_line` accepts the request lines and leaves the URL from its first slash; of any
other text it keeps the check state. -/
theorem parseRequestLine_grammar (buf : List UInt8) (text : Nat) (m : Members) :
    ((parseRequestLine buf text m).1 = .noRequest ↔ ∃ u, RequestFor (cstr buf text) u) ∧
    (∀ u, RequestFor (cstr buf text) u → ∃ i, (parseRequestLine buf text m).2.2.url = some i ∧
      cstr (parseRequestLine buf text m).2.1 i = urlPath u) ∧
    ((¬ ∃ u, RequestFor (cstr buf text) u) → (parseRequestLine buf text m).1 = .badRequest ∧
      (parseRequestLine buf text m).2.2.checkState = m.checkState) := by
  have hiff := validRequestLine_iff_url (t := cstr buf text)
  rcases parseRequestLine_split buf text m with ⟨hv, m', h, _, _, _, hurl⟩ | ⟨hv, m', h, hst, _⟩
  · rw [hiff] at hv
    rw [h]
    refine ⟨⟨fun _ => hv, fun _ => rfl⟩, ?_, fun hnot => absurd hv hnot⟩
    intro u hu
    obtain ⟨i, hi, hpath⟩ := parseRequestLine_urlPath m.version hu
    exact ⟨i, hurl.trans hi, hpath⟩
  · rw [hiff] at hv
    rw [h]
    refine ⟨⟨?_, fun h' => absurd h' hv⟩, fun u hu => absurd ⟨u, hu⟩ hv, fun _ => ⟨rfl, hst⟩⟩
    intro h'
    cases h'

theorem parseHeaders_append (ht : Terminated buf text) (rest : List UInt8) (m : Members) :
    parseHeaders (buf ++ rest) text m = parseHeaders buf text m := by
  simp only [parseHeaders]
  rw [getD_append ht.lt, strncaseeq_append ht, strncaseeq_append ht, strncaseeq_append ht]
  split
  · rfl
  · split
    · rename_i hf
      have ht₁ := ht.add (strncaseeq_length hf)
      rw [strspn_append ht₁, strcaseeq_append (strspn_terminated blanks ht₁)]
    · split
      · rename_i hf
        have ht₁ := ht.add (strncaseeq_length hf)
        rw [strspn_append ht₁, cstr_append (strspn_terminated blanks ht₁)]
      · split
        · rename_i hf
          have ht₁ := ht.add (strncaseeq_length hf)
          rw [strspn_append ht₁]
        · rfl

theorem handleHead_local : Local handleHead where
  length := by
    intro buf text m
    simp only [handleHead]
    split
    · rcases parseRequestLine_split buf text m with ⟨_, m', h, _⟩ | ⟨_, m', h, _⟩
      · rw [h]
        exact parseRequestLine_length buf text m.version
      · rw [h]
        exact parseRequestLine_length buf text m.version
    · rfl
    · rfl
  append := by
    intro buf rest text m ht
    have hline : parseRequestLine (buf ++ rest) text m =
        ((parseRequestLine buf text m).1, (parseRequestLine buf text m).2.1 ++ rest,
          (parseRequestLine buf text m).2.2) := by
      simp only [parseRequestLine, Http.parseRequestLine_append ht]
      split
      · rfl
      · rfl
    simp only [handleHead]
    split
    · rw [hline]
    · rw [parseHeaders_append ht]
    · rfl

def isField (name t : List UInt8) : Bool := eqIgnoreCase (t.take name.length) name

/-- The content length after a header line. -/
def lengthField (n : Int) (t : List UInt8) : Int :=
  if isField contentLengthText t then
    toInt32 (atol ((t.drop contentLengthText.length).dropWhile fun b => b ∈ blanks))
  else n

/-- Content follows when its length is not 0. -/
def lengthEnd (n : Int) : CheckState × HeadEnd :=
  if n ≠ 0 then (.content, .content) else (.header, .doRequest)

/-- The two cases of the `switch` read a head and its content length. -/
def connRule : CheckState × Int → List UInt8 → (CheckState × Int) × Option HeadEnd :=
  headRule lengthField lengthEnd .badRequest .content

theorem not_both_fields {t : List UInt8} (h : isField connectionText t) :
    isField contentLengthText t = false := by
  by_contra hc
  have hc : isField contentLengthText t = true := by
    cases hf : isField contentLengthText t with
    | false => exact absurd hf hc
    | true => rfl
  have h1 := eqIgnoreCase_iff.mp h
  have h2 := congrArg (List.take connectionText.length) (eqIgnoreCase_iff.mp hc)
  rw [← List.map_take, List.take_take,
    Nat.min_eq_left (show connectionText.length ≤ contentLengthText.length by decide), h1] at h2
  exact absurd h2 (by decide)

/-- One header line: an empty one ends the head or leads to the content, any other sets at most the
header fields. -/
theorem parseHeaders_cases (buf : List UInt8) (text : Nat) (m : Members) :
    (cstr buf text = [] ∧ (m.method = .head ∨ m.contentLength = 0) ∧
      parseHeaders buf text m = (.getRequest, m)) ∨
    (cstr buf text = [] ∧ m.contentLength ≠ 0 ∧
      parseHeaders buf text m = (.noRequest, { m with checkState := .content })) ∨
    (cstr buf text ≠ [] ∧ ∃ m', parseHeaders buf text m = (.noRequest, m') ∧
      m'.checkState = m.checkState ∧ m'.method = m.method ∧ m'.url = m.url ∧
      m'.contentLength = lengthField m.contentLength (cstr buf text)) := by
  by_cases hz : buf.getD text 0 = 0
  · have hnil := (cstr_eq_nil buf text).mpr hz
    rw [parseHeaders, if_pos hz]
    by_cases hhead : m.method = .head
    · exact .inl ⟨hnil, .inl hhead, if_pos hhead⟩
    rw [if_neg hhead]
    by_cases hn : m.contentLength = 0
    · exact .inl ⟨hnil, .inr hn, if_neg (not_not_intro hn)⟩
    · exact .inr (.inl ⟨hnil, hn, if_pos hn⟩)
  · refine .inr (.inr ⟨fun h => hz ((cstr_eq_nil buf text).mp h), ?_⟩)
    rw [parseHeaders, if_neg hz]
    by_cases hconn : strncaseeq buf text connectionText
    · rw [if_pos hconn]
      refine ⟨_, rfl, rfl, rfl, rfl, ?_⟩
      have hnot : isField contentLengthText (cstr buf text) = false := not_both_fields hconn
      simp only [lengthField, hnot, if_false, Bool.false_eq_true]
    · rw [if_neg hconn]
      by_cases hlen : strncaseeq buf text contentLengthText
      · rw [if_pos hlen]
        refine ⟨_, rfl, rfl, rfl, rfl, ?_⟩
        have hf : isField contentLengthText (cstr buf text) = true := hlen
        simp only [lengthField, hf, if_true]
        rw [cstr_strspn, cstr_add buf text (strncaseeq_length hlen)]
      · rw [if_neg hlen]
        have hf : isField contentLengthText (cstr buf text) = false := by
          cases h : isField contentLengthText (cstr buf text) with
          | false => rfl
          | true => exact absurd h hlen
        by_cases hhost : strncaseeq buf text hostText
        · rw [if_pos hhost]
          refine ⟨_, rfl, rfl, rfl, rfl, ?_⟩
          simp only [lengthField, hf, if_false, Bool.false_eq_true]
        · rw [if_neg hhost]
          refine ⟨_, rfl, rfl, rfl, rfl, ?_⟩
          simp only [lengthField, hf, if_false, Bool.false_eq_true]

theorem handleHead_reads : ReadsAs handleHead (fun m => m.method = .get)
    (fun m => (m.checkState, m.contentLength)) connRule := by
  intro buf text m hget _
  cases hs : m.checkState with
  | requestLine =>
    simp only [handleHead, hs, connRule, headRule]
    rcases parseRequestLine_split buf text m with ⟨hv, m', h, hst, hlen, hm, _⟩ |
      ⟨hv, m', h, hst, hlen, hm⟩
    · simp only [h, hst, hlen, hv, hm hget, if_true]
      exact ⟨trivial, rfl⟩
    · simp only [h, hst, hlen, hv, hm hget, hs, if_true, if_false]
      exact ⟨trivial, trivial⟩
  | header =>
    simp only [handleHead, hs, connRule, headRule]
    rcases parseHeaders_cases buf text m with ⟨hnil, hend, h⟩ | ⟨hnil, hn, h⟩ |
      ⟨hnil, m', h, hst, hm, _, hlen⟩
    · have hn : m.contentLength = 0 := by simpa [hget] using hend
      simp [h, hnil, lengthEnd, hn, hget, hs]
    · simp [h, hnil, lengthEnd, hn, hget]
    · simp [h, hnil, hst, hs, hm, hget, hlen]
  | content =>
    simp only [handleHead, hs, connRule, headRule]
    exact ⟨hget, trivial⟩

end Line

/-! ## The loop up to the content -/

section Loop

variable {p : Conn}

/-- What a line's result means for `process_read`. -/
def headOutcome : Option (Exit HeadEnd) → Option Outcome
  | some (.stop .badRequest) => some (.code .badRequest)
  | some (.stop .doRequest) => some .doRequest
  | _ => none

/-- Outside `CHECK_STATE_CONTENT` a pass is a pass of the line loop. -/
theorem takeText_head (b : LineBuf) (m : Members) (h : m.checkState ≠ .content) :
    takeText b m = (headOutcome (lineTaken handleHead b m).1, .lineOk,
      (lineTaken handleHead b m).2) ∧
    ((lineTaken handleHead b m).2.state.checkState = .content ↔
      (lineTaken handleHead b m).1 = some (.stop .content)) := by
  cases hs : m.checkState with
  | requestLine =>
    simp only [takeText, lineTaken, handleHead, hs]
    rcases parseRequestLine_split b.readBuf b.startLine m with ⟨_, m', hp, hst, _⟩ |
      ⟨_, m', hp, hst, _⟩
    · simp [hp, hst, headOutcome]
    · simp [hp, hst, hs, headOutcome]
  | header =>
    simp only [takeText, lineTaken, handleHead, hs]
    rcases parseHeaders_cases b.readBuf b.startLine m with ⟨_, _, hp⟩ | ⟨_, _, hp⟩ |
      ⟨_, m', hp, hst, _⟩
    · simp [hp, hs, headOutcome]
    · simp [hp, headOutcome]
    · simp [hp, hst, hs, headOutcome]
  | content => exact absurd hs h

theorem parseHeaders_url (buf : List UInt8) (text : Nat) (m : Members) :
    (parseHeaders buf text m).2.url = m.url := by
  rcases parseHeaders_cases buf text m with ⟨_, _, h⟩ | ⟨_, _, h⟩ | ⟨_, m', h, _, _, hurl, _⟩
  · rw [h]
  · rw [h]
  · rw [h]
    exact hurl

/-- `m_url`, once the request line has been read, points to a string before the scanner. -/
def UrlRead (p : Conn) : Prop := p.state.checkState ≠ .requestLine →
  ∃ u, p.state.url = some u ∧ Terminated (p.line.readBuf.take p.line.checkedIdx) u

/-- A string that was there before a line is there behind it. -/
theorem terminated_endLine {b : LineBuf} (hw : b.Wf) {l r : List UInt8}
    (ha : b.ahead = l ++ cr :: lf :: r) {u : Nat}
    (hu : Terminated (b.readBuf.take b.checkedIdx) u) :
    Terminated ((b.endLine (b.checkedIdx + l.length)).readBuf.take
      (b.checkedIdx + l.length + 2)) u := by
  have hlen := LineBuf.readIdx_of_line hw ha
  have hread := hw.read_le
  refine Terminated.take_mono (j := b.checkedIdx) ?_ (by omega)
  simp only [LineBuf.endLine]
  rw [List.take_set_of_le (by omega), List.take_set_of_le (by omega)]
  exact hu

/-- A valid request line leaves `m_url` at a string that ends before the scanner. -/
theorem requestLine_url (p : Conn) (hw : p.line.Wf) {l r : List UInt8}
    (ha : p.line.ahead = l ++ cr :: lf :: r) (hs : p.state.checkState = .requestLine) :
    UrlRead (lineTaken handleHead (p.line.endLine (p.line.checkedIdx + l.length)) p.state).2 := by
  have hlen := LineBuf.readIdx_of_line hw ha
  have hstart := hw.start_le
  have hread := hw.read_le
  intro hne
  obtain ⟨u, v, hbuf, hu, ht⟩ := endLine_split
    (b := p.line) (k := p.line.checkedIdx + l.length) (by omega) (by omega)
  have happ := parseRequestLine_append ht (0 :: v) p.state.version
  have hlength := parseRequestLine_length u p.line.startLine p.state.version
  have hcheck : (lineTaken handleHead (p.line.endLine (p.line.checkedIdx + l.length))
      p.state).2.line.checkedIdx = p.line.checkedIdx + l.length + 2 := rfl
  have hstart' : (p.line.endLine (p.line.checkedIdx + l.length)).startLine = p.line.startLine := rfl
  have hvalid := parseRequestLine_valid u p.line.startLine p.state.version
  have htext : cstr (u ++ 0 :: v) p.line.startLine = cstr u p.line.startLine := cstr_append ht _
  rw [hcheck]
  simp only [lineTaken, handleHead, hs, hstart', hbuf] at hne ⊢
  rcases parseRequestLine_split (u ++ 0 :: v) p.line.startLine p.state with
    ⟨hv, m', hm, _, _, _, hurl⟩ | ⟨_, m', hm, hst, _⟩
  · rw [htext] at hv
    obtain ⟨w, hw', hterm⟩ := parseRequestLine_url ht p.state.version (hvalid.mpr hv)
    simp only [hm, hurl, happ]
    refine ⟨w, hw', ?_⟩
    rw [List.take_append, List.take_of_length_le (by omega)]
    exact hterm.append _
  · simp only [hm] at hne
    exact absurd (hst.trans hs) hne

/-- The scanner moves on within the line. -/
theorem UrlRead.skip {p : Conn} (h : UrlRead p) (n : Nat) :
    UrlRead { p with line := p.line.skip n } := by
  intro hne
  obtain ⟨u, hu, ht⟩ := h hne
  exact ⟨u, hu, ht.take_mono (Nat.le_add_right _ _)⟩

theorem lineStep_url (p : Conn) (hw : p.line.Wf) (h : UrlRead p) :
    UrlRead (lineStep handleHead p).2 := by
  rcases lineStep_cases handleHead_local hw with ⟨l, r, ha, _, hstep, _, _⟩ | ⟨l, _, _, _, hstep⟩ |
    ⟨l, _, _, _, _, hstep⟩
  · rw [hstep]
    cases hs : p.state.checkState with
    | requestLine => exact requestLine_url p hw ha hs
    | header =>
      intro _
      obtain ⟨u, hu, ht⟩ := h (by rw [hs]; exact CheckState.noConfusion)
      simp only [lineTaken, handleHead, hs]
      exact ⟨u, (parseHeaders_url _ _ _).trans hu, terminated_endLine hw ha ht⟩
    | content =>
      intro _
      obtain ⟨u, hu, ht⟩ := h (by rw [hs]; exact CheckState.noConfusion)
      simp only [lineTaken, handleHead, hs]
      exact ⟨u, hu, terminated_endLine hw ha ht⟩
  · rw [hstep]
    exact h.skip _
  · rw [hstep]
    exact h.skip _

theorem run_url (p : Conn) (hw : p.line.Wf) (h : UrlRead p) : UrlRead (run handleHead p).2 :=
  run_keeps handleHead_local UrlRead lineStep_url p hw h

/-- The line loop enters `CHECK_STATE_CONTENT` only when it stops for it. -/
theorem run_not_content (p : Conn) (hw : p.line.Wf) (hs : p.state.checkState ≠ .content)
    (h : (run handleHead p).1 ≠ .stop .content) :
    (run handleHead p).2.state.checkState ≠ .content := by
  refine run_induction handleHead_local (motive := fun p => p.state.checkState ≠ .content →
    (run handleHead p).1 ≠ .stop .content → (run handleHead p).2.state.checkState ≠ .content)
    ?_ p hw hs h
  intro p hw ih hs h
  rw [run_eq handleHead_local hw] at h ⊢
  rcases lineStep_cases handleHead_local hw with ⟨l, r, _, _, hstep, _, _⟩ | ⟨l, _, _, _, hstep⟩ |
    ⟨l, _, _, _, _, hstep⟩
  · have hcont := (takeText_head (p.line.endLine (p.line.checkedIdx + l.length)) p.state hs).2
    rw [← hstep] at hcont
    cases hls : lineStep handleHead p with
    | mk e p' =>
      rw [hls] at hcont h
      cases e with
      | none => exact ih p' hls (fun hc => (by cases hcont.mp hc)) h
      | some e =>
        intro hc
        exact h (Option.some.inj (hcont.mp hc))
  · rw [hstep]
    exact hs
  · rw [hstep]
    exact hs

/-- How `process_read` goes on when the line loop ends. -/
def headResult (fuel : Nat) : Exit HeadEnd × Conn → Outcome × Conn
  | (.stop .badRequest, q) => (.code .badRequest, q)
  | (.stop .doRequest, q) => (.doRequest, q)
  | (.stop .content, q) => parseReadLoop fuel .lineOk q
  | (.lineOpen, q) => (.code .noRequest, q)
  | (.lineBad, q) => (.code .noRequest, q)

/-- The loop is the line loop, and then the content, with passes enough for it. -/
theorem parseReadLoop_head (p : Conn) (hw : p.line.Wf) (hs : p.state.checkState ≠ .content)
    (fuel : Nat) (hf : p.line.ahead.length + 1 ≤ fuel) :
    ∃ fuel', (run handleHead p).2.line.ahead.length + 2 ≤ fuel' ∧
      parseReadLoop fuel .lineOk p = headResult fuel' (run handleHead p) := by
  refine run_induction handleHead_local (motive := fun p => p.state.checkState ≠ .content →
    ∀ fuel, p.line.ahead.length + 1 ≤ fuel →
      ∃ fuel', (run handleHead p).2.line.ahead.length + 2 ≤ fuel' ∧
        parseReadLoop fuel .lineOk p = headResult fuel' (run handleHead p)) ?_ p hw hs fuel hf
  intro p hw ih hs fuel hf
  obtain ⟨n, rfl⟩ : ∃ n, fuel = n + 1 := ⟨fuel - 1, by omega⟩
  have hnext : nextText .lineOk p = p.line.parseLine := if_neg fun h => hs h.1
  rw [run_eq handleHead_local hw]
  simp only [parseReadLoop, hnext]
  rcases LineBuf.parseLine_cases hw with ⟨l, r, ha, hl, hp⟩ | ⟨l, held, ha, hl, hp⟩ |
    ⟨l, r, ha, hl, hr, hp⟩
  · obtain ⟨htake, hcont⟩ :=
      takeText_head (p.line.endLine (p.line.checkedIdx + l.length)) p.state hs
    have hstep : lineStep handleHead p =
        lineTaken handleHead (p.line.endLine (p.line.checkedIdx + l.length)) p.state := by
      simp only [lineStep, hp]
    have hlen := LineBuf.readIdx_of_line hw ha
    have hstart := hw.start_le
    have hahead : (lineStep handleHead p).2.line.ahead.length + 2 ≤ p.line.ahead.length := by
      rw [hstep, lineTaken_ahead handleHead_local hw (by omega) (by omega),
        LineBuf.endLine_ahead_of_line ha, ha, List.length_append, List.length_cons,
        List.length_cons]
      omega
    rw [← hstep] at htake hcont
    simp only [hp, htake]
    cases hls : lineStep handleHead p with
    | mk e p' =>
      rw [hls] at hcont hahead
      have hahead : p'.line.ahead.length + 2 ≤ p.line.ahead.length := hahead
      cases e with
      | none =>
        have hs' : p'.state.checkState ≠ .content := fun h => (by cases hcont.mp h)
        exact ih p' hls hs' n (by omega)
      | some e =>
        cases e with
        | lineOpen =>
          exact absurd (congrArg Prod.fst (hstep.symm.trans hls)) (lineTaken_exit _ _).1
        | lineBad =>
          exact absurd (congrArg Prod.fst (hstep.symm.trans hls)) (lineTaken_exit _ _).2
        | stop r =>
          refine ⟨n, by show p'.line.ahead.length + 2 ≤ n; omega, ?_⟩
          cases r with
          | badRequest => rfl
          | doRequest => rfl
          | content => rfl
  · have hstep : lineStep handleHead p =
        (some .lineOpen, { p with line := p.line.skip l.length }) := by
      simp only [lineStep, hp]
    rw [hstep]
    exact ⟨_, Nat.le_refl _, by simp only [hp]; rfl⟩
  · have hstep : lineStep handleHead p =
        (some .lineBad, { p with line := p.line.skip l.length }) := by
      simp only [lineStep, hp]
    rw [hstep]
    exact ⟨_, Nat.le_refl _, by simp only [hp]; rfl⟩

theorem parseRead_head (p : Conn) (hw : p.line.Wf) (hs : p.state.checkState ≠ .content) :
    ∃ fuel, (run handleHead p).2.line.ahead.length + 2 ≤ fuel ∧
      parseRead p = headResult fuel (run handleHead p) := by
  have hlen := LineBuf.ahead_length hw
  exact parseReadLoop_head p hw hs _ (by omega)

end Loop

/-! ## Whole streams -/

theorem init_wf (m : Members) : (init m).line.Wf := LineBuf.cleared_wf readBufferSize

theorem init_ahead (m : Members) (bs : List UInt8) : ((init m).receive bs).line.ahead = bs := by
  have hahead := LineBuf.ahead_receive (init_wf m) bs
  exact hahead

/-- The line loop on a whole stream, as a fold over its lines. -/
theorem init_run (m : Members) (bs : List UInt8) :
    Folded (fun m => (m.checkState, m.contentLength)) connRule (.requestLine, 0) bs
      (run handleHead ((init m).receive bs)) := by
  have hw : ((init m).receive bs).line.Wf := LineBuf.receive_wf (init_wf m) bs
  have hfold := run_fold handleHead_local handleHead_reads ((init m).receive bs) hw rfl rfl
  rw [init_ahead] at hfold
  exact hfold

/-! ## The codes -/

section Codes

theorem takeText_outcome {b : LineBuf} {m : Members} {out : Outcome}
    (h : (takeText b m).1 = some out) :
    out = .code .badRequest ∨ out = .doRequest ∨ out = .undefined := by
  unfold takeText at h
  simp only [] at h
  split at h
  · split at h
    · exact .inl (Option.some.inj h).symm
    · cases h
  · split at h
    · exact .inl (Option.some.inj h).symm
    · split at h
      · exact .inr (.inl (Option.some.inj h).symm)
      · cases h
  · split at h
    · exact .inr (.inr (Option.some.inj h).symm)
    · simp only [] at h
      split at h
      · exact .inr (.inl (Option.some.inj h).symm)
      · cases h

/-- By induction on the passes: the loop ends without a result, or with what a pass leaves it
with. -/
theorem parseReadLoop_outcome (fuel : Nat) (lineStatus : LineStatus) (p : Conn) :
    (parseReadLoop fuel lineStatus p).1 = .code .noRequest ∨
      (parseReadLoop fuel lineStatus p).1 = .code .badRequest ∨
      (parseReadLoop fuel lineStatus p).1 = .doRequest ∨
      (parseReadLoop fuel lineStatus p).1 = .undefined := by
  induction fuel generalizing lineStatus p with
  | zero => exact .inl rfl
  | succ fuel ih =>
    unfold parseReadLoop
    split
    · rename_i b _
      have hout := @takeText_outcome b p.state
      generalize takeText b p.state = r at hout
      obtain ⟨_ | out, lineStatus', q⟩ := r
      · exact ih lineStatus' q
      · exact .inr (hout rfl)
    · exact .inl rfl

/-- The codes `do_request` returns. -/
theorem doRequest_codes {fs : FileSystem} {p q : Conn} {ret : HttpCode}
    (h : doRequest fs p = some (ret, q)) : ret = .noResource ∨ ret = .forbiddenRequest ∨
      ret = .badRequest ∨ ret = .fileRequest := by
  unfold doRequest at h
  split at h
  · cases h
  · simp only [] at h
    split at h
    · cases h
      exact .inl rfl
    · split at h
      · cases h
        exact .inr (.inl rfl)
      · split at h
        · cases h
          exact .inr (.inr (.inl rfl))
        · cases h
          exact .inr (.inr (.inr rfl))

theorem processRead_codes {fs : FileSystem} {p q : Conn} {ret : HttpCode}
    (h : processRead fs p = some (ret, q)) : ret = .noRequest ∨ ret = .noResource ∨
      ret = .forbiddenRequest ∨ ret = .badRequest ∨ ret = .fileRequest := by
  have hout := parseReadLoop_outcome (p.line.readIdx + 2) .lineOk p
  have h : finish fs (parseReadLoop (p.line.readIdx + 2) .lineOk p) = some (ret, q) := h
  generalize parseReadLoop (p.line.readIdx + 2) .lineOk p = r at h hout
  obtain ⟨out, p'⟩ := r
  rcases hout with rfl | rfl | rfl | rfl
  · cases h
    exact .inl rfl
  · cases h
    exact .inr (.inr (.inr (.inl rfl)))
  · exact .inr (doRequest_codes h)
  · cases h

end Codes

end Unpvol1.HttpConn
