import Unpvol1.Http.HttpConnCalls
import Unpvol1.Lib.Path

/-!
# Http.HttpConnPath

The path that `do_request` hands to `stat` and `open`: the document root, and behind it as much of
the URL as `m_real_file` holds. Nothing looks at the URL's components.

* `reached` — the connection when `do_request` is called, after any number of calls.
* `lookedUp` — the path; `doRequest_lookedUp` — nothing else of the file system matters.
* `Aimed` — between two passes `m_url` is the path of the URL of the request line;
  `parseReadLoop_aimed` — the loop keeps it, except that a negative content length cuts the URL.
* `reached_under_iff` — the path is under the document root when the URL's route stays within it.
-/

namespace Unpvol1.HttpConn

open Http

/-- `'.'` -/
def dot : UInt8 := 46

/-- The connection with which `do_request` is called, when `process_read` is called after each chunk
and has no result before. -/
def reached (p : Conn) : List (List UInt8) → Option Conn
  | [] => none
  | chunk :: chunks =>
    match parseRead (p.receive chunk) with
    | (.code .noRequest, p) => reached p chunks
    | (.doRequest, q) => some q
    | _ => none

/-- The string at `m_url`. -/
def urlString (q : Conn) : Option (List UInt8) := q.state.url.map (cstr q.line.readBuf)

/-- `m_real_file` in `do_request`. -/
def lookedUp (q : Conn) : Option (List UInt8) :=
  (urlString q).map fun url => cstr (realFile q.state.realFile url) 0

/-! ## The path -/

section Lookup

variable {fs : FileSystem} {q : Conn}

theorem serve_reached {p : Conn} {chunks : List (List UInt8)} (h : reached p chunks = some q) :
    serve fs p chunks = doRequest fs q := by
  induction chunks generalizing p with
  | nil => cases h
  | cons chunk chunks ih =>
    simp only [reached] at h
    simp only [serve, processRead]
    split at h
    · rename_i hread
      rw [hread]
      exact ih h
    · rename_i hread
      cases h
      rw [hread]
      exact serveOn_decided (doRequest_decided fs q) chunks
    · cases h

/-- `do_request` asks the file system for nothing but that path. -/
theorem doRequest_lookedUp {fs' : FileSystem} {path : List UInt8} (h : lookedUp q = some path)
    (hstat : fs.stat path = fs'.stat path) (hmmap : fs.mmap path = fs'.mmap path) :
    doRequest fs q = doRequest fs' q := by
  cases hu : q.state.url with
  | none => simp only [doRequest, hu]
  | some u =>
    simp only [lookedUp, urlString, hu, Option.map_some, Option.some.injEq] at h
    simp only [doRequest, hu, h, hstat, hmmap]

/-- The document root and the URL behind it, as far as there is room for it. -/
theorem realFile_path {s : List UInt8} (hs : 0 ∉ s) :
    cstr (realFile (List.replicate filenameLen 0) s) 0 = docRoot ++ s.take 186 := by
  have hlen : (s.take 186 ++ List.replicate (186 - s.length) (0 : UInt8)).length = 186 := by
    rw [List.length_append, List.length_take, List.length_replicate]
    omega
  have hfront : (overwrite (List.replicate filenameLen 0) 0 (docRoot ++ [0])).take docRoot.length =
      docRoot := by decide +kernel
  have hback : (overwrite (List.replicate filenameLen 0) 0 (docRoot ++ [0])).drop
      (docRoot.length + 186) = [0] := by decide +kernel
  have hroom : filenameLen - docRoot.length - 1 = 186 := rfl
  have hfile : realFile (List.replicate filenameLen 0) s =
      docRoot ++ (s.take 186 ++ List.replicate (186 - s.length) 0) ++ [0] := by
    rw [realFile, strncpy, hroom, overwrite, hfront, hlen, hback]
  have hnul : (0 : UInt8) ∉ docRoot ++ s.take 186 := by
    intro h
    rcases List.mem_append.mp h with h | h
    · exact absurd h (by decide)
    · exact hs (List.mem_of_mem_take h)
  have hzeros : List.replicate (186 - s.length) (0 : UInt8) ++ [0] =
      0 :: List.replicate (186 - s.length) 0 := by
    rw [← List.replicate_succ, List.replicate_succ']
  rw [hfile, cstr, List.drop_zero, List.append_assoc, List.append_assoc, hzeros,
    ← List.append_assoc, cut_append_nul, cut_of_not_mem hnul]

/-- Behind the document root, what starts with a slash stays under it if its route does. -/
theorem under_docRoot {s : List UInt8} (hs : ∀ b ∈ s.head?, b = slash) :
    Path.Under slash dot docRoot (docRoot ++ s) ↔
      (Path.route slash dot s).Within (Path.resolve slash dot docRoot) := by
  cases s with
  | nil =>
    rw [List.append_nil]
    refine ⟨fun _ => ?_, fun _ => Path.under_self slash dot docRoot⟩
    exact Path.Route.within_of_ups rfl _
  | cons b s =>
    have hb : b = slash := hs b rfl
    rw [hb, Path.route_sep]
    exact Path.under_append slash dot docRoot s

end Lookup

/-! ## A NUL set in a string -/

section Cut

theorem cut_set_prefix (l : List UInt8) (k : Nat) : cut (l.set k 0) <+: cut l := by
  induction l generalizing k with
  | nil => exact List.prefix_rfl
  | cons b l ih =>
    cases k with
    | zero => exact List.nil_prefix
    | succ k =>
      simp only [cut, List.set_cons_succ, List.takeWhile_cons]
      split
      · exact (List.prefix_cons_inj b).mpr (ih k)
      · exact List.nil_prefix

theorem cstr_set_prefix (mem : List UInt8) (k i : Nat) :
    cstr (mem.set k 0) i <+: cstr mem i := by
  rw [cstr, List.drop_set]
  split
  · exact List.prefix_rfl
  · exact cut_set_prefix _ _

end Cut

/-! ## The loop -/

/-- `bs` begins with a request line for the URL `u`. -/
def Asks (bs u : List UInt8) : Prop :=
  ∃ l rest, bs = l ++ cr :: lf :: rest ∧ Clean l ∧ RequestFor (cut l) u

/-- `m_url` points to the string `s`, which ends before the current line. -/
def UrlIs (s : List UInt8) (p : Conn) : Prop :=
  ∃ i, p.state.url = some i ∧ Terminated (p.line.readBuf.take p.line.startLine) i ∧
    cstr p.line.readBuf i = s

/-- Between two passes, with `bs` read so far: the request line is still ahead, or its URL is at
`m_url`. -/
structure Aimed (bs : List UInt8) (p : Conn) : Prop where
  wf : p.line.Wf
  blank : p.state.realFile = List.replicate filenameLen 0
  early : p.state.checkState = .requestLine → p.line.startLine = 0 ∧
    p.line.readBuf.take p.line.readIdx = bs ∧ Clean (bs.take p.line.checkedIdx)
  late : p.state.checkState ≠ .requestLine → ∃ u, Asks bs u ∧ UrlIs (urlPath u) p

/-- At `do_request` the URL is the one asked for, or what a negative content length left of it. -/
def Found (bs : List UInt8) (q : Conn) : Prop :=
  q.state.realFile = List.replicate filenameLen 0 ∧
    ∃ u s, Asks bs u ∧ urlString q = some s ∧ s <+: urlPath u ∧
      (0 ≤ q.state.contentLength → s = urlPath u)

section Passes

variable {bs c s : List UInt8} {p q : Conn}

theorem Asks.append {u : List UInt8} (h : Asks bs u) (c : List UInt8) : Asks (bs ++ c) u := by
  obtain ⟨l, rest, rfl, h⟩ := h
  exact ⟨l, rest ++ c, List.append_assoc _ _ _, h⟩

/-- What is written from the current line on leaves the URL. -/
theorem UrlIs.keep (h : UrlIs s p) (hu : q.state.url = p.state.url)
    (hstart : p.line.startLine ≤ q.line.startLine)
    (hbuf : q.line.readBuf.take p.line.startLine = p.line.readBuf.take p.line.startLine) :
    UrlIs s q := by
  obtain ⟨i, hi, ht, hs⟩ := h
  refine ⟨i, hu.trans hi, ?_, ?_⟩
  · refine Terminated.take_mono ?_ hstart
    rw [hbuf]
    exact ht
  · rw [← hs, ← List.take_append_drop p.line.startLine q.line.readBuf, hbuf, cstr_append ht,
      ← cstr_append ht (p.line.readBuf.drop p.line.startLine), List.take_append_drop]

theorem UrlIs.string (h : UrlIs s p) : urlString p = some s := by
  obtain ⟨i, hi, _, hs⟩ := h
  rw [urlString, hi, Option.map_some, hs]

theorem Aimed.found (h : Aimed bs p) (hs : p.state.checkState ≠ .requestLine) : Found bs p := by
  obtain ⟨u, hu, hurl⟩ := h.late hs
  exact ⟨h.blank, u, urlPath u, hu, hurl.string, List.prefix_rfl, fun _ => rfl⟩

/-- Behind the request line, a pass that writes only from the current line on. -/
theorem Aimed.keep (h : Aimed bs p) (hs : p.state.checkState ≠ .requestLine)
    (hs' : q.state.checkState ≠ .requestLine) (hw : q.line.Wf)
    (hfile : q.state.realFile = p.state.realFile) (hu : q.state.url = p.state.url)
    (hstart : p.line.startLine ≤ q.line.startLine)
    (hbuf : q.line.readBuf.take p.line.startLine = p.line.readBuf.take p.line.startLine) :
    Aimed bs q where
  wf := hw
  blank := hfile.trans h.blank
  early := fun he => absurd he hs'
  late := by
    intro _
    obtain ⟨u, hask, hurl⟩ := h.late hs
    exact ⟨u, hask, hurl.keep hu hstart hbuf⟩

theorem Aimed.receive (h : Aimed bs p) (c : List UInt8) : Aimed (bs ++ c) (p.receive c) where
  wf := LineBuf.receive_wf h.wf c
  blank := h.blank
  early := by
    intro hs
    obtain ⟨hstart, htake, hclean⟩ := h.early hs
    have hlen := h.wf.checked_le
    have hread := h.wf.read_le
    refine ⟨hstart, ?_, ?_⟩
    · show (overwrite p.line.readBuf p.line.readIdx c).take (p.line.readIdx + c.length) = _
      rw [take_overwrite hread, htake]
    · have hle : p.line.checkedIdx ≤ bs.length := by
        rw [← htake, List.length_take]
        omega
      show Clean ((bs ++ c).take p.line.checkedIdx)
      rw [List.take_append_of_le_length hle]
      exact hclean
  late := by
    intro hs
    obtain ⟨u, hask, hurl⟩ := h.late hs
    refine ⟨u, hask.append c, hurl.keep rfl (Nat.le_refl _) ?_⟩
    have hstart := h.wf.start_le
    have hlen := h.wf.checked_le
    exact take_overwrite_of_le h.wf.read_le (by omega)

theorem init_aimed (m : Members) : Aimed [] (init m) where
  wf := init_wf m
  blank := rfl
  early := fun _ => ⟨rfl, rfl, fun _ h => nomatch h⟩
  late := fun hs => absurd rfl hs

/-- The scanner passes over clean bytes. -/
theorem Aimed.skip (h : Aimed bs p) {l r : List UInt8} (ha : p.line.ahead = l ++ r)
    (hl : Clean l) : Aimed bs { p with line := p.line.skip l.length } where
  wf := LineBuf.skip_wf h.wf hl ha
  blank := h.blank
  early := by
    intro hs
    obtain ⟨hstart, htake, hclean⟩ := h.early hs
    refine ⟨hstart, htake, ?_⟩
    have hdrop : bs.drop p.line.checkedIdx = l ++ r := by
      rw [← htake]
      exact ha
    show Clean (bs.take (p.line.checkedIdx + l.length))
    rw [List.take_add, hdrop, List.take_left]
    exact clean_append.mpr ⟨hclean, hl⟩
  late := h.late

end Passes

section Taken

variable {bs l r : List UInt8} {p : Conn}

theorem parseHeaders_realFile (buf : List UInt8) (text : Nat) (m : Members) :
    (parseHeaders buf text m).2.realFile = m.realFile := by
  unfold parseHeaders
  simp only []
  repeat' split
  all_goals rfl

theorem handleHead_realFile (buf : List UInt8) (text : Nat) (m : Members) :
    (handleHead buf text m).state.realFile = m.realFile := by
  unfold handleHead
  split
  · unfold parseRequestLine
    simp only []
    split
    · rfl
    · rfl
  · exact parseHeaders_realFile buf text m
  · rfl

/-- The request line: its text is all that has been read up to there. -/
theorem Aimed.requestLine (h : Aimed bs p) (hs : p.state.checkState = .requestLine)
    (ha : p.line.ahead = l ++ cr :: lf :: r) (hl : Clean l) {b : LineBuf}
    (hb : b = p.line.endLine (p.line.checkedIdx + l.length)) :
    ∃ l', bs = l' ++ cr :: lf :: r ∧ Clean l' ∧ cstr b.readBuf b.startLine = cut l' := by
  obtain ⟨hstart, htake, hclean⟩ := h.early hs
  have hlen := LineBuf.readIdx_of_line h.wf ha
  have hread := h.wf.read_le
  have hdrop : bs.drop p.line.checkedIdx = l ++ cr :: lf :: r := by
    rw [← htake]
    exact ha
  have hsplit : bs = bs.take p.line.checkedIdx ++ l ++ cr :: lf :: r := by
    rw [List.append_assoc, ← hdrop, List.take_append_drop]
  refine ⟨bs.take p.line.checkedIdx ++ l, hsplit, clean_append.mpr ⟨hclean, hl⟩, ?_⟩
  -- the scanner put back to the start of the line
  have hback : ({ p.line with checkedIdx := 0 } : LineBuf).Wf :=
    ⟨Nat.le_of_eq hstart, Nat.zero_le _, hread, fun i hi => absurd hi (Nat.succ_ne_zero i).symm⟩
  have hall : ({ p.line with checkedIdx := 0 } : LineBuf).ahead =
      bs.take p.line.checkedIdx ++ l ++ cr :: lf :: r := htake.trans hsplit
  have hcut := (endLine_cstr hback hstart hall).2
  have hk : 0 + (bs.take p.line.checkedIdx ++ l).length = p.line.checkedIdx + l.length := by
    have hle : p.line.checkedIdx ≤ bs.length := by
      rw [← htake, List.length_take]
      omega
    rw [List.length_append, List.length_take, Nat.min_eq_left hle, Nat.zero_add]
  simp only [hk] at hcut
  rw [hb]
  exact hcut

section Line

variable (h : Aimed bs p) (ha : p.line.ahead = l ++ cr :: lf :: r) (hl : Clean l) {b : LineBuf}
  (hb : b = p.line.endLine (p.line.checkedIdx + l.length))

include h ha hb

theorem Aimed.taken_wf : (lineTaken handleHead b p.state).2.line.Wf := by
  have hlen := LineBuf.readIdx_of_line h.wf ha
  have hstart := h.wf.start_le
  rw [hb]
  exact lineTaken_wf handleHead_local h.wf (by omega) (by omega) _

/-- A header line leaves the URL, whatever it says. -/
theorem Aimed.header (hs : p.state.checkState = .header) :
    Aimed bs (lineTaken handleHead b p.state).2 ∧
      (lineTaken handleHead b p.state).2.state.checkState ≠ .requestLine := by
  have hlen := LineBuf.readIdx_of_line h.wf ha
  have hstart := h.wf.start_le
  have hne : p.state.checkState ≠ .requestLine := by
    rw [hs]
    exact CheckState.noConfusion
  have hstate : (lineTaken handleHead b p.state).2.state =
      (parseHeaders b.readBuf b.startLine p.state).2 := by
    simp only [lineTaken, handleHead, hs]
  have hline : (lineTaken handleHead b p.state).2.line = { b with startLine := b.checkedIdx } := by
    simp only [lineTaken, handleHead, hs]
  have hne' : (lineTaken handleHead b p.state).2.state.checkState ≠ .requestLine := by
    rw [hstate]
    rcases parseHeaders_cases b.readBuf b.startLine p.state with
      ⟨_, _, hp⟩ | ⟨_, _, hp⟩ | ⟨_, m', hp, hst, _⟩
    · rw [hp]
      exact hne
    · rw [hp]
      exact CheckState.noConfusion
    · rw [hp, hst]
      exact hne
  refine ⟨h.keep hne hne' (h.taken_wf ha hb) (handleHead_realFile _ _ _) ?_ ?_ ?_, hne'⟩
  · rw [hstate]
    exact parseHeaders_url _ _ _
  · rw [hline, hb]
    show p.line.startLine ≤ p.line.checkedIdx + l.length + 2
    omega
  · rw [hline, hb]
    show ((p.line.readBuf.set _ 0).set _ 0).take _ = _
    rw [List.take_set_of_le (by omega), List.take_set_of_le (by omega)]

include hl

/-- A request line that is accepted puts its URL at `m_url`; any other ends the loop. -/
theorem Aimed.request (hs : p.state.checkState = .requestLine) :
    (lineTaken handleHead b p.state).1 = none ∧ Aimed bs (lineTaken handleHead b p.state).2 ∨
      (lineTaken handleHead b p.state).1 = some (.stop .badRequest) := by
  obtain ⟨l', hbs, hl', htext⟩ := h.requestLine hs ha hl hb
  obtain ⟨hcode, hurl, hbad⟩ := parseRequestLine_grammar b.readBuf b.startLine p.state
  rw [htext] at hcode hurl hbad
  have hstate : (lineTaken handleHead b p.state).2.state =
      (parseRequestLine b.readBuf b.startLine p.state).2.2 := by
    simp only [lineTaken, handleHead, hs]
  have hbuf : (lineTaken handleHead b p.state).2.line.readBuf =
      (parseRequestLine b.readBuf b.startLine p.state).2.1 := by
    simp only [lineTaken, handleHead, hs]
  have hres : (lineTaken handleHead b p.state).1 =
      (if (parseRequestLine b.readBuf b.startLine p.state).1 = .badRequest then
        some HeadEnd.badRequest else none).map .stop := by
    simp only [lineTaken, handleHead, hs]
  by_cases hv : ∃ u, RequestFor (cut l') u
  · obtain ⟨u, hu⟩ := hv
    have hok := hcode.mpr ⟨u, hu⟩
    have hhead : (lineTaken handleHead b p.state).2.state.checkState = .header := by
      rw [hstate]
      rcases parseRequestLine_split b.readBuf b.startLine p.state with
        ⟨_, m', hp, hst, _⟩ | ⟨_, m', hp, _⟩
      · rw [hp]
        exact hst
      · rw [hp] at hok
        cases hok
    refine .inl ⟨by rw [hres, hok]; rfl, h.taken_wf ha hb,
      (handleHead_realFile _ _ _).trans h.blank, ?_, ?_⟩
    · intro he
      rw [hhead] at he
      cases he
    · intro _
      obtain ⟨i, hi, hpath⟩ := hurl u hu
      have hparse : p.line.parseLine = (.lineOk, b) := by
        rw [LineBuf.parseLine_eq h.wf, ha, scan_line hl, hb]
        rfl
      have hread := lineStep_url p h.wf fun hne => absurd hs hne
      simp only [lineStep, hparse] at hread
      obtain ⟨j, hj, hterm⟩ := hread (by rw [hhead]; exact CheckState.noConfusion)
      rw [hstate, hi] at hj
      cases hj
      refine ⟨u, ⟨l', r, hbs, hl', hu⟩, i, hstate ▸ hi, hterm, ?_⟩
      rw [hbuf]
      exact hpath
  · refine .inr ?_
    rw [hres, (hbad hv).1]
    rfl

/-- A line before the content: the loop goes on aimed, or has found what to look up. -/
theorem Aimed.taken (hs : p.state.checkState ≠ .content) :
    (headOutcome (lineTaken handleHead b p.state).1 = none →
      Aimed bs (lineTaken handleHead b p.state).2) ∧
    (headOutcome (lineTaken handleHead b p.state).1 = some .doRequest →
      Found bs (lineTaken handleHead b p.state).2) := by
  cases hcheck : p.state.checkState with
  | requestLine =>
    rcases h.request ha hl hb hcheck with ⟨hnone, haimed⟩ | hbad
    · rw [hnone]
      exact ⟨fun _ => haimed, nofun⟩
    · rw [hbad]
      exact ⟨nofun, nofun⟩
  | header =>
    obtain ⟨haimed, hne⟩ := h.header ha hb hcheck
    exact ⟨fun _ => haimed, fun _ => haimed.found hne⟩
  | content => exact absurd hcheck hs

end Line

/-- A line of the body. -/
theorem Aimed.line (h : Aimed bs p) (ha : p.line.ahead = l ++ cr :: lf :: r)
    (hs : p.state.checkState = .content) :
    Aimed bs { line := p.line.endLine (p.line.checkedIdx + l.length), state := p.state } := by
  have hlen := LineBuf.readIdx_of_line h.wf ha
  have hstart := h.wf.start_le
  have hne : p.state.checkState ≠ .requestLine := by
    rw [hs]
    exact CheckState.noConfusion
  refine h.keep hne hne (LineBuf.endLine_wf h.wf _ (by omega) (by omega)) rfl rfl
    (Nat.le_refl _) ?_
  show ((p.line.readBuf.set _ 0).set _ 0).take _ = _
  rw [List.take_set_of_le (by omega), List.take_set_of_le (by omega)]

/-- A look at the body: the NUL behind it is in front of the current line only when the content
length is negative. -/
theorem Aimed.content {b : LineBuf} {m : Members} (h : Aimed bs { line := b, state := m })
    (hs : m.checkState = .content) :
    ((takeText b m).1 = none → Aimed bs (takeText b m).2.2) ∧
      ((takeText b m).1 = some .doRequest → Found bs (takeText b m).2.2) := by
  have hne : m.checkState ≠ .requestLine := by
    rw [hs]
    exact CheckState.noConfusion
  by_cases hbig : 2 ^ 31 ≤ m.contentLength + b.checkedIdx
  · rw [takeText_overflow hs hbig]
    exact ⟨nofun, nofun⟩
  by_cases hlt : (b.readIdx : Int) < m.contentLength + b.checkedIdx
  · rw [takeText_incomplete hs hlt (by omega)]
    refine ⟨fun _ => ?_, nofun⟩
    exact h.keep (q := ⟨{ b with startLine := b.checkedIdx }, m⟩) hne hne
      (setStart_wf h.wf (Nat.le_refl _)) rfl rfl h.wf.start_le rfl
  rw [takeText_complete hs (by omega) (by omega)]
  split
  · refine ⟨nofun, fun _ => ⟨h.blank, ?_⟩⟩
    obtain ⟨u, hask, hurl⟩ := h.late hne
    obtain ⟨i, hi, ht, hpath⟩ := hurl
    have hi : m.url = some i := hi
    refine ⟨u, cstr (b.readBuf.set (b.startLine + m.contentLength).toNat 0) i, hask, ?_, ?_, ?_⟩
    · show m.url.map _ = _
      rw [hi]
      rfl
    · rw [← hpath]
      exact cstr_set_prefix _ _ _
    · intro hn
      have hn : 0 ≤ m.contentLength := hn
      have hkeep := UrlIs.keep (p := ⟨b, m⟩) (s := urlPath u)
        (q := ⟨{ b with readBuf := b.readBuf.set (b.startLine + m.contentLength).toNat 0 }, m⟩)
        ⟨i, hi, ht, hpath⟩ rfl (Nat.le_refl _) (List.take_set_of_le (by simp only []; omega))
      have hstring := hkeep.string
      simp only [urlString, hi, Option.map_some, Option.some.injEq] at hstring
      exact hstring
  · exact ⟨nofun, nofun⟩

/-- By induction on the passes. -/
theorem parseReadLoop_aimed (fuel : Nat) (lineStatus : LineStatus) (p : Conn) (h : Aimed bs p) :
    ((parseReadLoop fuel lineStatus p).1 = .code .noRequest →
      Aimed bs (parseReadLoop fuel lineStatus p).2) ∧
    ((parseReadLoop fuel lineStatus p).1 = .doRequest →
      Found bs (parseReadLoop fuel lineStatus p).2) := by
  induction fuel generalizing lineStatus p with
  | zero => exact ⟨fun _ => h, fun e => by cases e⟩
  | succ fuel ih =>
    -- what follows a pass on the text in `b`
    have hpass : ∀ b, nextText lineStatus p = (.lineOk, b) →
        (((takeText b p.state).1 = none → Aimed bs (takeText b p.state).2.2) ∧
          ((takeText b p.state).1 = some .doRequest → Found bs (takeText b p.state).2.2)) →
        ((parseReadLoop (fuel + 1) lineStatus p).1 = .code .noRequest →
          Aimed bs (parseReadLoop (fuel + 1) lineStatus p).2) ∧
        ((parseReadLoop (fuel + 1) lineStatus p).1 = .doRequest →
          Found bs (parseReadLoop (fuel + 1) lineStatus p).2) := by
      intro b hnext ⟨hgo, hfound⟩
      have hout := @takeText_outcome b p.state
      simp only [parseReadLoop, hnext]
      generalize takeText b p.state = t at hgo hfound hout
      obtain ⟨_ | out, lineStatus', q⟩ := t
      · exact ih lineStatus' q (hgo rfl)
      · refine ⟨fun hno => ?_, fun hdo => hfound (congrArg some hdo)⟩
        have hno : out = .code .noRequest := hno
        rcases hout rfl with h' | h' | h'
        · rw [hno] at h'
          cases h'
        · rw [hno] at h'
          cases h'
        · rw [hno] at h'
          cases h'
    by_cases hc : p.state.checkState = .content ∧ lineStatus = .lineOk
    · exact hpass p.line (if_pos hc) (h.content hc.1)
    have hnext : nextText lineStatus p = p.line.parseLine := if_neg hc
    rcases LineBuf.parseLine_cases h.wf with ⟨l, r, ha, hl, hp⟩ | ⟨l, held, ha, hl, hp⟩ |
      ⟨l, r, ha, hl, _, hp⟩
    · refine hpass _ (hnext.trans hp) ?_
      by_cases hs : p.state.checkState = .content
      · exact (h.line ha hs).content hs
      · rw [(takeText_head _ p.state hs).1]
        exact h.taken ha hl rfl hs
    · simp only [parseReadLoop, hnext, hp]
      exact ⟨fun _ => h.skip ha hl, by simp⟩
    · simp only [parseReadLoop, hnext, hp]
      exact ⟨fun _ => h.skip ha hl, by simp⟩

end Taken

/-! ## The calls -/

section Calls

variable {bs : List UInt8} {p q : Conn} {chunks : List (List UInt8)}

theorem Found.append (h : Found bs q) (c : List UInt8) : Found (bs ++ c) q := by
  obtain ⟨hfile, u, s, hask, h⟩ := h
  exact ⟨hfile, u, s, hask.append c, h⟩

/-- By induction on the chunks. -/
theorem reached_found (h : Aimed bs p) (hr : reached p chunks = some q) :
    Found (bs ++ chunks.flatten) q := by
  induction chunks generalizing bs p with
  | nil => cases hr
  | cons c chunks ih =>
    have hcall := parseReadLoop_aimed ((p.receive c).line.readIdx + 2) .lineOk _ (h.receive c)
    have hflat : bs ++ (c :: chunks).flatten = bs ++ c ++ chunks.flatten := by
      rw [List.flatten_cons, List.append_assoc]
    rw [hflat]
    simp only [reached, parseRead] at hr
    split at hr
    · rename_i p' hread
      rw [hread] at hcall
      exact ih (hcall.1 rfl) hr
    · rename_i q' hread
      rw [hread] at hcall
      cases hr
      exact (hcall.2 rfl).append _
    · cases hr

theorem urlPath_head {u s : List UInt8} (h : s <+: urlPath u) : ∀ b ∈ s.head?, b = slash := by
  intro b hb
  have hhead : (urlPath u).head? = some b := by
    obtain ⟨t, ht⟩ := h
    rw [← ht, List.head?_append, Option.mem_def.mp hb]
    rfl
  have hnot := List.head?_dropWhile_not (fun b => decide (b ≠ slash))
    (if eqIgnoreCase (u.take schemeText.length) schemeText then u.drop schemeText.length else u)
  rw [urlPath] at hhead
  rw [hhead] at hnot
  simpa using hnot

/-- The path that is looked up is under the document root if and only if its URL part, as far as it
is copied, ends by its own components where it starts or within. -/
theorem reached_under_iff (m : Members) (h : reached (init m) chunks = some q) :
    ∃ u s path, Asks chunks.flatten u ∧ urlString q = some s ∧ s <+: urlPath u ∧
      (0 ≤ q.state.contentLength → s = urlPath u) ∧ lookedUp q = some path ∧
      (Path.Under slash dot docRoot path ↔
        (Path.route slash dot (s.take 186)).Within (Path.resolve slash dot docRoot)) := by
  obtain ⟨hfile, u, s, hask, hs, hpre, hlen⟩ := reached_found (init_aimed m) h
  have hnul : (0 : UInt8) ∉ s := by
    obtain ⟨i, _, hi⟩ := Option.map_eq_some_iff.mp hs
    rw [← hi]
    exact not_mem_cut _
  refine ⟨u, s, docRoot ++ s.take 186, hask, hs, hpre, hlen, ?_, ?_⟩
  · rw [lookedUp, hs, Option.map_some, hfile, realFile_path hnul]
  · exact under_docRoot (urlPath_head ((List.take_prefix 186 s).trans hpre))

/-- `GET /a/../b HTTP/1.1` in two chunks. -/
def dottedRequest : List (List UInt8) :=
  [[71, 69, 84, 32, 47, 97, 47, 46, 46, 47, 98, 32, 72, 84, 84],
    [80, 47, 49, 46, 49, cr, lf, cr, lf]]

theorem reached_under_dotted : ∃ q path, reached (init Members.blank) dottedRequest = some q ∧
    lookedUp q = some path ∧ Path.Under slash dot docRoot path := by
  have hsome : (reached (init Members.blank) dottedRequest).isSome = true := by decide +kernel
  obtain ⟨q, hq⟩ := Option.isSome_iff_exists.mp hsome
  have hurl : (reached (init Members.blank) dottedRequest).bind urlString =
      some [47, 97, 47, 46, 46, 47, 98] := by decide +kernel
  rw [hq] at hurl
  obtain ⟨u, s, path, _, hs, _, _, hpath, hiff⟩ := reached_under_iff Members.blank hq
  cases hs.symm.trans hurl
  exact ⟨q, path, hq, hpath, hiff.mpr (by decide +kernel)⟩

/-- `GET /../../etc/passwd HTTP/1.1` -/
def climbingRequest : List (List UInt8) :=
  [[71, 69, 84, 32, 47, 46, 46, 47, 46, 46, 47, 101, 116, 99, 47, 112, 97, 115, 115, 119, 100, 32,
    72, 84, 84, 80, 47, 49, 46, 49, cr, lf, cr, lf]]

theorem reached_outside : ¬ ∀ (m : Members) (chunks : List (List UInt8)) (q : Conn)
    (path : List UInt8), reached (init m) chunks = some q → lookedUp q = some path →
      Path.Under slash dot docRoot path := by
  intro hall
  have hpath : (reached (init Members.blank) climbingRequest).bind lookedUp =
      some (docRoot ++
        [47, 46, 46, 47, 46, 46, 47, 101, 116, 99, 47, 112, 97, 115, 115, 119, 100]) := by
    decide +kernel
  obtain ⟨q, hq, hlook⟩ := Option.bind_eq_some_iff.mp hpath
  exact absurd (hall Members.blank climbingRequest q _ hq hlook) (by decide +kernel)

end Calls
end Unpvol1.HttpConn
