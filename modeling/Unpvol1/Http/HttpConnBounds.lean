import Unpvol1.Http.HttpConnServe
import Unpvol1.Http.HttpConnPath

/-!
# Http.HttpConnBounds

The indices of `m_read_buf` that `parse_line` and `parse_content` use, and the sum
`m_content_length + m_checked_idx`, over all calls of `process_read` on a stream.

* `accesses` — the indices and sums in order; `Access.Safe` — the limits they must stay in.
* `readLoopAccess_safe`, `accesses_serve` — they do just when no call comes to an undefined
  operation.
* `OutOfBounds` — the streams and cuts on which a limit is missed: a negative content length, a
  positive one that overflows, or a body whose end is the buffer's.
* `strays_step`, `strays_rest` — the calls on a body; `accesses_safe_iff` — there are no others.
-/

namespace Unpvol1.HttpConn

open Http

inductive Access where
  /-- A byte of `m_read_buf` is read or written. -/
  | index (i : Int)
  /-- `m_content_length + m_checked_idx` -/
  | sum (v : Int)
  deriving DecidableEq, Repr

def Access.Safe : Access → Prop
  | .index i => 0 ≤ i ∧ i < readBufferSize
  | .sum v => -2 ^ 31 ≤ v ∧ v < 2 ^ 31

/-- The loop of `parse_line`, as `parseLineLoop` has it. -/
def lineLoopAccess : Nat → LineBuf → List Access
  | 0, _ => []
  | n + 1, b =>
    let i := b.checkedIdx
    if b.byte i = cr then
      if i + 1 = b.readIdx then [.index i]
      else if b.byte (i + 1) = lf then [.index i, .index (i + 1), .index i, .index (i + 1)]
      else [.index i, .index (i + 1)]
    else if b.byte i = lf then
      if 1 < i then
        if b.byte (i - 1) = cr then [.index i, .index (i - 1), .index (i - 1), .index i]
        else [.index i, .index (i - 1)]
      else [.index i]
    else .index i :: lineLoopAccess n (b.skip 1)

def lineAccess (b : LineBuf) : List Access := lineLoopAccess (b.readIdx - b.checkedIdx) b

/-- `parse_content` -/
def contentAccess (b : LineBuf) (text : Nat) (m : Members) : List Access :=
  .sum (m.contentLength + b.checkedIdx) ::
    if m.contentLength + b.checkedIdx ≤ b.readIdx then [.index (text + m.contentLength)] else []

def takeAccess (b : LineBuf) (m : Members) : List Access :=
  match m.checkState with
  | .content => contentAccess b b.startLine m
  | _ => []

/-- The loop of `process_read`, as `parseReadLoop` has it. -/
def readLoopAccess : Nat → LineStatus → Conn → List Access
  | 0, _, _ => []
  | fuel + 1, lineStatus, p =>
    (if p.state.checkState = .content ∧ lineStatus = .lineOk then [] else lineAccess p.line) ++
      match nextText lineStatus p with
      | (.lineOk, b) =>
        takeAccess b p.state ++
          match takeText b p.state with
          | (some _, _, _) => []
          | (none, lineStatus, p) => readLoopAccess fuel lineStatus p
      | _ => []

/-- `read()` when `chunk` has come: `recv` is asked for no more than there is room for, and what is
left of the chunk then ends the connection, as a call without any room does. -/
def read (p : Conn) (chunk : List UInt8) : Option Conn :=
  if p.line.readIdx < readBufferSize ∧ p.line.readIdx + chunk.length ≤ readBufferSize then
    some (p.receive chunk)
  else none

/-- The connection's run: `process_read` after each `read()`, until one of them decides. -/
def accesses (p : Conn) : List (List UInt8) → List Access
  | [] => []
  | chunk :: chunks =>
    match read p chunk with
    | none => []
    | some p =>
      readLoopAccess (p.line.readIdx + 2) .lineOk p ++
        match parseRead p with
        | (.code .noRequest, p) => accesses p chunks
        | _ => []

/-- The chunks for which `read()` returns true when `readIdx` bytes have been read before. -/
def admitted (readIdx : Nat) : List (List UInt8) → List (List UInt8)
  | [] => []
  | chunk :: chunks =>
    if readIdx < readBufferSize ∧ readIdx + chunk.length ≤ readBufferSize then
      chunk :: admitted (readIdx + chunk.length) chunks
    else []

/-! ## One call -/

section Call

variable {p : Conn} {b : LineBuf} {m : Members} {lineStatus : LineStatus}

/-- By induction on the bytes ahead: `parse_line` looks at bytes that have been read. -/
theorem lineLoopAccess_safe (n : Nat) (b : LineBuf) (hn : b.checkedIdx + n = b.readIdx)
    (hread : b.readIdx ≤ readBufferSize) : ∀ a ∈ lineLoopAccess n b, a.Safe := by
  have hsize : readBufferSize = 2048 := rfl
  induction n generalizing b with
  | zero => exact fun a ha => nomatch ha
  | succ n ih =>
    have hat : ∀ j : Nat, j < b.readIdx → (Access.index j).Safe :=
      fun j hj => ⟨Int.natCast_nonneg j, by omega⟩
    have hhere := hat b.checkedIdx (by omega)
    simp only [lineLoopAccess]
    split
    · split
      · exact List.forall_mem_singleton.mpr hhere
      · rename_i hne
        have hnext := hat (b.checkedIdx + 1) (by omega)
        split
        · simp only [List.mem_cons, List.not_mem_nil, or_false, forall_eq_or_imp, forall_eq]
          exact ⟨hhere, hnext, hhere, hnext⟩
        · simp only [List.mem_cons, List.not_mem_nil, or_false, forall_eq_or_imp, forall_eq]
          exact ⟨hhere, hnext⟩
    · split
      · split
        · rename_i hpos
          have hback : (Access.index (b.checkedIdx - 1)).Safe := ⟨by omega, by omega⟩
          split
          · simp only [List.mem_cons, List.not_mem_nil, or_false, forall_eq_or_imp, forall_eq]
            exact ⟨hhere, hback, hback, hhere⟩
          · simp only [List.mem_cons, List.not_mem_nil, or_false, forall_eq_or_imp, forall_eq]
            exact ⟨hhere, hback⟩
        · exact List.forall_mem_singleton.mpr hhere
      · exact List.forall_mem_cons.mpr ⟨hhere, ih (b.skip 1)
          (by simp only [LineBuf.skip]; omega) hread⟩

theorem lineAccess_safe (hw : b.Wf) (hsize : b.readBuf.length = readBufferSize) :
    ∀ a ∈ lineAccess b, a.Safe := by
  have hle := hw.checked_le
  exact lineLoopAccess_safe _ b (by omega) (hsize ▸ hw.read_le)

/-- The look at a body is within the limits just when it is defined. -/
theorem takeAccess_safe (hsize : b.readBuf.length = readBufferSize)
    (hint : -2 ^ 31 ≤ m.contentLength) :
    (∀ a ∈ takeAccess b m, a.Safe) ↔ (takeText b m).1 ≠ some .undefined := by
  cases hs : m.checkState with
  | requestLine =>
    simp only [takeAccess, takeText, hs]
    refine ⟨fun _ => ?_, fun _ a ha => by cases ha⟩
    split
    · simp
    · simp
  | header =>
    simp only [takeAccess, takeText, hs]
    refine ⟨fun _ => ?_, fun _ a ha => by cases ha⟩
    split
    · simp
    · split
      · simp
      · simp
  | content =>
    simp only [takeAccess, hs, contentAccess]
    by_cases hbig : 2 ^ 31 ≤ m.contentLength + b.checkedIdx
    · rw [takeText_overflow hs hbig]
      refine ⟨fun h => ?_, fun h => absurd rfl h⟩
      have hsum := (h _ List.mem_cons_self).2
      omega
    have hsum : (Access.sum (m.contentLength + b.checkedIdx)).Safe := ⟨by omega, by omega⟩
    rw [List.forall_mem_cons, and_iff_right hsum]
    by_cases hlt : (b.readIdx : Int) < m.contentLength + b.checkedIdx
    · rw [takeText_incomplete hs hlt (by omega), if_neg (by omega)]
      exact ⟨fun _ => by simp, fun _ a ha => by cases ha⟩
    rw [takeText_complete hs (by omega) (by omega), if_pos (by omega), List.forall_mem_singleton,
      hsize]
    show (_ ∧ _) ↔ _
    split
    · rename_i hin
      exact ⟨fun _ => by simp, fun _ => hin⟩
    · rename_i hout
      exact ⟨fun h => absurd h hout, fun h => absurd rfl h⟩

theorem takeText_contentLength (b : LineBuf) (hint : -2 ^ 31 ≤ m.contentLength) :
    -2 ^ 31 ≤ (takeText b m).2.2.state.contentLength := by
  cases hs : m.checkState with
  | requestLine =>
    rcases parseRequestLine_split b.readBuf b.startLine m with ⟨_, m', hp, _, hlen, _⟩ |
      ⟨_, m', hp, _, hlen, _⟩
    · simp only [takeText, hs, hp, hlen]
      exact hint
    · simp only [takeText, hs, hp, hlen]
      exact hint
  | header =>
    rcases parseHeaders_cases b.readBuf b.startLine m with ⟨_, _, hp⟩ | ⟨_, _, hp⟩ |
      ⟨_, m', hp, _, _, _, hlen⟩
    · simp only [takeText, hs, hp]
      exact hint
    · simp only [takeText, hs, hp]
      exact hint
    · simp only [takeText, hs, hp, hlen, lengthField]
      split
      · exact Int.le_bmod (by decide)
      · exact hint
  | content =>
    simp only [takeText, hs]
    split
    · exact hint
    · exact hint

/-- What the calls of `process_read` rely on and keep. -/
structure Fits (p : Conn) : Prop where
  wf : p.line.Wf
  size : p.line.readBuf.length = readBufferSize
  int : -2 ^ 31 ≤ p.state.contentLength

/-- A pass, on the text that `nextText` gives. -/
theorem Fits.pass (h : Fits p) (hnext : nextText lineStatus p = (.lineOk, b)) :
    b.readBuf.length = readBufferSize ∧
      ((takeText b p.state).1 = none → Fits (takeText b p.state).2.2 ∧
        (takeText b p.state).2.2.line.readIdx = p.line.readIdx) := by
  have hcontent : ∀ b : LineBuf, b.Wf → b.readBuf.length = readBufferSize →
      b.readIdx = p.line.readIdx → p.state.checkState = .content →
      (takeText b p.state).1 = none → Fits (takeText b p.state).2.2 ∧
        (takeText b p.state).2.2.line.readIdx = p.line.readIdx := by
    intro b hw hsize hread hs hnone
    by_cases hbig : 2 ^ 31 ≤ p.state.contentLength + b.checkedIdx
    · rw [takeText_overflow hs hbig] at hnone
      cases hnone
    by_cases hlt : (b.readIdx : Int) < p.state.contentLength + b.checkedIdx
    · rw [takeText_incomplete hs hlt (by omega)]
      exact ⟨⟨setStart_wf hw (Nat.le_refl _), hsize, h.int⟩, hread⟩
    · rw [takeText_complete hs (by omega) (by omega)] at hnone
      split at hnone
      · cases hnone
      · cases hnone
  by_cases hc : p.state.checkState = .content ∧ lineStatus = .lineOk
  · rw [nextText, if_pos hc] at hnext
    cases hnext
    exact ⟨h.size, hcontent _ h.wf h.size rfl hc.1⟩
  rw [nextText, if_neg hc] at hnext
  rcases LineBuf.parseLine_cases h.wf with ⟨l, r, ha, _, hp⟩ | ⟨_, _, _, _, hp⟩ |
    ⟨_, _, _, _, _, hp⟩
  · rw [hp] at hnext
    cases hnext
    have hlen := LineBuf.readIdx_of_line h.wf ha
    have hstart := h.wf.start_le
    have hsize : (p.line.endLine (p.line.checkedIdx + l.length)).readBuf.length =
        readBufferSize := by
      simp only [LineBuf.endLine, List.length_set]
      exact h.size
    refine ⟨hsize, fun hnone => ?_⟩
    by_cases hs : p.state.checkState = .content
    · exact hcontent _ (LineBuf.endLine_wf h.wf _ (by omega) (by omega)) hsize rfl hs hnone
    · refine ⟨⟨?_, ?_, takeText_contentLength _ h.int⟩, ?_⟩
      · rw [(takeText_head _ _ hs).1]
        exact lineTaken_wf handleHead_local h.wf (by omega) (by omega) _
      · rw [(takeText_head _ _ hs).1]
        exact (handleHead_local.length _ _ _).trans hsize
      · rw [(takeText_head _ _ hs).1]
        rfl
  · rw [hp] at hnext
    cases hnext
  · rw [hp] at hnext
    cases hnext

/-- By induction on the passes: the loop stays within the limits just when it comes to no undefined
operation. -/
theorem readLoopAccess_safe (fuel : Nat) (lineStatus : LineStatus) (p : Conn) (h : Fits p) :
    (∀ a ∈ readLoopAccess fuel lineStatus p, a.Safe) ↔
      (parseReadLoop fuel lineStatus p).1 ≠ .undefined := by
  induction fuel generalizing lineStatus p with
  | zero => exact ⟨fun _ e => (by cases e), fun _ a ha => by cases ha⟩
  | succ fuel ih =>
    have hline : ∀ a ∈ (if p.state.checkState = .content ∧ lineStatus = .lineOk then []
        else lineAccess p.line), a.Safe := by
      split
      · exact fun a ha => by cases ha
      · exact lineAccess_safe h.wf h.size
    simp only [readLoopAccess, parseReadLoop]
    rw [List.forall_mem_append, and_iff_right hline]
    cases hn : nextText lineStatus p with
    | mk st b =>
      cases st with
      | lineBad => exact ⟨fun _ e => (by cases e), fun _ a ha => by cases ha⟩
      | lineOpen => exact ⟨fun _ e => (by cases e), fun _ a ha => by cases ha⟩
      | lineOk =>
        obtain ⟨hsize, hkeep⟩ := h.pass hn
        have htake := takeAccess_safe hsize h.int
        simp only []
        rw [List.forall_mem_append, htake]
        generalize takeText b p.state = t at hkeep
        obtain ⟨_ | out, lineStatus', q⟩ := t
        · exact (and_iff_right (by simp)).trans (ih lineStatus' q (hkeep rfl).1)
        · refine ⟨fun h hu => h.1 (congrArg some hu), fun h => ⟨fun hu => ?_, fun a ha => ?_⟩⟩
          · exact h (Option.some.inj hu)
          · cases ha

theorem Fits.skip (h : Fits p) {l r : List UInt8} (ha : p.line.ahead = l ++ r) (hl : Clean l) :
    Fits { p with line := p.line.skip l.length } where
  wf := LineBuf.skip_wf h.wf hl ha
  size := h.size
  int := h.int

/-- By induction on the passes. -/
theorem Fits.loop (fuel : Nat) (lineStatus : LineStatus) (p : Conn) (h : Fits p)
    (hno : (parseReadLoop fuel lineStatus p).1 = .code .noRequest) :
    Fits (parseReadLoop fuel lineStatus p).2 ∧
      (parseReadLoop fuel lineStatus p).2.line.readIdx = p.line.readIdx := by
  induction fuel generalizing lineStatus p with
  | zero => exact ⟨h, rfl⟩
  | succ fuel ih =>
    cases hn : nextText lineStatus p with
    | mk st b =>
      by_cases hst : st = .lineOk
      · subst hst
        obtain ⟨_, hkeep⟩ := h.pass hn
        have hout := @takeText_outcome b p.state
        simp only [parseReadLoop, hn] at hno ⊢
        generalize takeText b p.state = t at hkeep hout hno
        obtain ⟨_ | out, lineStatus', q⟩ := t
        · obtain ⟨hq, hread⟩ := hkeep rfl
          obtain ⟨hfits, hidx⟩ := ih lineStatus' q hq hno
          exact ⟨hfits, hidx.trans hread⟩
        · -- a pass does not end the loop with `NO_REQUEST`
          have hno : out = .code .noRequest := hno
          rcases hout rfl with h' | h' | h'
          · rw [hno] at h'
            cases h'
          · rw [hno] at h'
            cases h'
          · rw [hno] at h'
            cases h'
      · have hc : ¬ (p.state.checkState = .content ∧ lineStatus = .lineOk) := by
          intro hc
          rw [nextText, if_pos hc] at hn
          cases hn
          exact hst rfl
        have hparse := hn
        rw [nextText, if_neg hc] at hparse
        rcases LineBuf.parseLine_cases h.wf with ⟨_, _, _, _, hp⟩ | ⟨l, held, ha, hl, hp⟩ |
          ⟨l, r, ha, hl, _, hp⟩
        · rw [hp] at hparse
          cases hparse
          exact absurd rfl hst
        · rw [hp] at hparse
          cases hparse
          simp only [parseReadLoop, hn]
          exact ⟨h.skip ha hl, rfl⟩
        · rw [hp] at hparse
          cases hparse
          simp only [parseReadLoop, hn]
          exact ⟨h.skip ha hl, rfl⟩

theorem Fits.receive (h : Fits p) {c : List UInt8}
    (hfit : p.line.readIdx + c.length ≤ readBufferSize) : Fits (p.receive c) where
  wf := LineBuf.receive_wf h.wf c
  size := by
    rw [← h.size]
    exact LineBuf.receive_size (by rw [h.size]; exact hfit)
  int := h.int

theorem init_fits (m : Members) : Fits (init m) where
  wf := init_wf m
  size := List.length_replicate
  int := by
    show (-2 ^ 31 : Int) ≤ 0
    decide

end Call

/-! ## The calls -/

section Calls

variable {fs : FileSystem} {bs : List UInt8} {p : Conn} {chunks : List (List UInt8)}

theorem Found.doRequest_some {q : Conn} (h : Found bs q) (fs : FileSystem) :
    ∃ c q', doRequest fs q = some (c, q') ∧ c ≠ .noRequest := by
  obtain ⟨_, _, _, _, hs, _⟩ := h
  obtain ⟨u, hu, _⟩ := Option.map_eq_some_iff.mp hs
  exact HttpConn.doRequest_some fs hu

theorem admitted_length {readIdx : Nat} (h : readIdx ≤ readBufferSize) :
    readIdx + (admitted readIdx chunks).flatten.length ≤ readBufferSize := by
  induction chunks generalizing readIdx with
  | nil => exact h
  | cons c chunks ih =>
    rw [admitted]
    split
    · rename_i hroom
      have hrest := ih hroom.2
      rw [List.flatten_cons, List.length_append]
      omega
    · exact h

/-- By induction on the chunks: the calls stay within the limits just when they come to no undefined
operation. -/
theorem accesses_serve (ha : Aimed bs p) (h : Fits p) : (∀ a ∈ accesses p chunks, a.Safe) ↔
    serve fs p (admitted p.line.readIdx chunks) ≠ none := by
  induction chunks generalizing bs p with
  | nil => exact ⟨fun _ e => (by cases e), fun _ a ha => by cases ha⟩
  | cons c chunks ih =>
    rw [accesses, read, admitted]
    by_cases hroom : p.line.readIdx < readBufferSize ∧ p.line.readIdx + c.length ≤ readBufferSize
    · rw [if_pos hroom, if_pos hroom]
      have hc := h.receive hroom.2
      have haim := ha.receive c
      have hcall := parseReadLoop_aimed ((p.receive c).line.readIdx + 2) .lineOk _ haim
      have hloop := hc.loop ((p.receive c).line.readIdx + 2) .lineOk
      simp only []
      rw [List.forall_mem_append, readLoopAccess_safe _ _ _ hc, serve, processRead, parseRead]
      generalize parseReadLoop ((p.receive c).line.readIdx + 2) .lineOk (p.receive c) = t
        at hcall hloop
      obtain ⟨out, q⟩ := t
      cases out with
      | undefined => exact ⟨fun hs => absurd rfl hs.1, fun hs => absurd rfl hs⟩
      | doRequest =>
        obtain ⟨code, q', hq', hne⟩ := (hcall.2 rfl).doRequest_some fs
        refine ⟨fun _ => ?_, fun _ => ⟨by simp, fun a ha => by cases ha⟩⟩
        rw [finish, hq']
        cases code with
        | noRequest => exact absurd rfl hne
        | _ => simp
      | code code =>
        cases code with
        | noRequest =>
          obtain ⟨hq, hread⟩ := hloop rfl
          have hidx : q.line.readIdx = p.line.readIdx + c.length := hread
          rw [← hidx]
          exact (and_iff_right (by simp)).trans (ih (hcall.1 rfl) hq)
        | _ => exact ⟨fun _ e => (by cases e), fun _ => ⟨by simp, fun a ha => by cases ha⟩⟩
    · rw [if_neg hroom, if_neg hroom]
      exact ⟨fun _ e => (by cases e), fun _ a ha => by cases ha⟩

end Calls

/-! ## The streams and cuts -/

/-- Where the scanner and then the last line begin, behind the `k` bytes of the head, after the
calls on `zs`. -/
def lineStart (k : Nat) (zs : List (List UInt8)) : Nat :=
  max (lineRun (zs.dropLast.flatten.drop k)) (linesLength (zs.flatten.drop k))

/-- In a call the sum of the content length and a position of the scanner overflows. -/
def Overflows (k : Nat) (n : Int) (u : List UInt8 × List UInt8) : Prop :=
  2 ^ 31 ≤ n + k + max (lineRun (u.1.drop k)) (linesLength (u.2.drop k))

/-- After the calls on `zs`, which leave the body incomplete, the chunk `c` fills the buffer with a
body that ends where the buffer does, counted from the scanner as well as from the line. -/
def Fills (k : Nat) (n : Int) (zs : List (List UInt8)) (c : List UInt8) : Prop :=
  (∀ u ∈ calls [] zs, (u.2.length : Int) < k + lineRun (u.1.drop k) + n) ∧
    (zs.flatten ++ c).length = readBufferSize ∧
    k + lineRun (zs.flatten.drop k) + n = readBufferSize ∧
    lineStart k zs = lineRun (zs.flatten.drop k)

/-- The calls on `chunks`, after those on `zs`, go wrong on a body of length `n`. -/
def Strays (k : Nat) (n : Int) (zs chunks : List (List UInt8)) : Prop :=
  (∃ u ∈ calls zs.flatten chunks, Overflows k n u) ∨
    ∃ ds c rest, chunks = ds ++ c :: rest ∧ Fills k n (zs ++ ds) c

/-- The content length is so far negative that the NUL behind the body is in front of the buffer,
or it is positive and a call goes wrong on the body. -/
def OutOfBounds (chunks : List (List UInt8)) : Prop :=
  ∃ k n body, HasBody chunks.flatten k n body ∧ (k + n < 0 ∨ 0 < n ∧ Strays k n [] chunks)

section Cuts

variable {k : Nat} {n : Int} {zs ys chunks : List (List UInt8)} {c body : List UInt8}

theorem flatten_concat (zs : List (List UInt8)) (c : List UInt8) :
    (zs ++ [c]).flatten = zs.flatten ++ c := by
  rw [List.flatten_append, List.flatten_singleton]

/-- In the head there is no line of the body. -/
theorem lineStart_head (hz : zs.flatten.length ≤ k) : lineStart k zs = 0 := by
  have hlines : linesLength (zs.flatten.drop k) = 0 := by
    rw [List.drop_of_length_le hz]
    rfl
  have hrun : lineRun (zs.dropLast.flatten.drop k) = 0 := by
    rcases List.eq_nil_or_concat zs with rfl | ⟨ws, d, rfl⟩
    · exact lineRun_drop_of_le (Nat.zero_le k)
    · rw [List.concat_eq_append, List.dropLast_concat]
      rw [List.concat_eq_append, flatten_concat, List.length_append] at hz
      exact lineRun_drop_of_le (by omega)
  rw [lineStart, hlines, hrun, Nat.max_self]

theorem outOfBounds_iff (hb : HasBody chunks.flatten k n body) :
    OutOfBounds chunks ↔ k + n < 0 ∨ 0 < n ∧ Strays k n [] chunks := by
  constructor
  · rintro ⟨k', n', body', hb', h⟩
    obtain ⟨rfl, rfl, rfl⟩ := hb.unique hb'
    exact h
  · intro h
    exact ⟨k, n, body, hb, h⟩

theorem strays_nil : ¬ Strays k n zs [] := by
  rintro (⟨u, hu, _⟩ | ⟨ds, c, rest, h, _⟩)
  · cases hu
  · cases ds with
    | nil => cases h
    | cons d ds => cases h

/-- The first call goes wrong, or a later one. -/
theorem strays_cons : Strays k n zs (c :: ys) ↔
    Overflows k n (zs.flatten, zs.flatten ++ c) ∨ Fills k n zs c ∨ Strays k n (zs ++ [c]) ys := by
  rw [Strays, Strays, calls, flatten_concat, List.exists_mem_cons_iff]
  constructor
  · rintro ((hu | hrest) | ⟨ds, d, rest, h, hfill⟩)
    · exact .inl hu
    · exact .inr (.inr (.inl hrest))
    · cases ds with
      | nil =>
        cases h
        rw [List.append_nil] at hfill
        exact .inr (.inl hfill)
      | cons e ds =>
        cases h
        rw [List.append_cons] at hfill
        exact .inr (.inr (.inr ⟨ds, d, rest, rfl, hfill⟩))
  · rintro (hu | hfill | hrest | ⟨ds, d, rest, rfl, hfill⟩)
    · exact .inl (.inl hu)
    · exact .inr ⟨[], c, ys, rfl, by rw [List.append_nil]; exact hfill⟩
    · exact .inl (.inr hrest)
    · exact .inr ⟨c :: ds, d, rest, rfl, by rw [List.append_cons]; exact hfill⟩

/-- The calls before the one in which the head ends do not matter. -/
theorem strays_head (hn : 0 < n) (xs : List (List UInt8))
    (hx : (zs ++ xs).flatten.length ≤ k) :
    Strays k n zs (xs ++ c :: ys) ↔ Strays k n (zs ++ xs) (c :: ys) := by
  induction xs generalizing zs with
  | nil => rw [List.append_nil]; rfl
  | cons d xs ih =>
    rw [List.append_cons zs d xs] at hx ⊢
    have hlen : (zs.flatten ++ d).length ≤ k := by
      simp only [List.flatten_append, List.length_append, List.flatten_singleton] at hx ⊢
      omega
    rw [List.cons_append, strays_cons, ih hx]
    constructor
    · rintro (hover | ⟨_, hfull, hsum, _⟩ | hrest)
      · -- nothing of the body is there, and the sum is the smallest
        have hrun : lineRun (zs.flatten.drop k) = 0 := lineRun_drop_of_le (by
          rw [List.length_append] at hlen
          omega)
        have hlines : linesLength ((zs.flatten ++ d).drop k) = 0 := by
          rw [List.drop_of_length_le hlen]
          rfl
        simp only [Overflows, hrun, hlines] at hover
        refine strays_cons.mpr (.inl ?_)
        rw [Overflows]
        omega
      · omega
      · exact hrest
    · exact fun h => .inr (.inr h)

/-- With a body that fits nothing overflows. -/
theorem not_overflows (hn : n ≤ readBufferSize)
    (hfit : (zs ++ ys).flatten.length ≤ readBufferSize) (hk : k ≤ readBufferSize)
    {u : List UInt8 × List UInt8} (hu : u ∈ calls zs.flatten ys) : ¬ Overflows k n u := by
  have hsize : readBufferSize = 2048 := rfl
  obtain ⟨⟨d, hd⟩, _, e, he⟩ := mem_calls hu
  have h1 := congrArg List.length hd
  have h2 := congrArg List.length he
  simp only [List.flatten_append, List.length_append] at h1 h2 hfit
  have h3 := lineRun_le (u.1.drop k)
  have h4 := linesLength_le (u.2.drop k)
  rw [List.length_drop] at h3 h4
  rw [Overflows]
  omega

/-- In a call that finds the body complete only the end of the buffer can be missed, and no call
after it goes wrong. -/
theorem strays_complete (hn : n ≤ readBufferSize) (hk : k ≤ readBufferSize)
    (hfit : (zs ++ c :: ys).flatten.length ≤ readBufferSize)
    (hall : k + lineRun (zs.flatten.drop k) + n ≤ (zs.flatten ++ c).length) :
    Strays k n zs (c :: ys) ↔ Fills k n zs c := by
  have hfirst : (zs.flatten, zs.flatten ++ c) ∈ calls zs.flatten (c :: ys) := List.mem_cons_self
  rw [strays_cons, or_iff_right (not_overflows hn hfit hk hfirst)]
  refine or_iff_left ?_
  rw [List.append_cons] at hfit
  rintro (⟨u, hu, hover⟩ | ⟨ds, d, rest, _, hfill⟩)
  · exact not_overflows hn hfit hk hu hover
  · have hbehind := hfill.1 (zs.flatten, zs.flatten ++ c) (by
      rw [← List.append_cons, calls_append, List.nil_append]
      exact List.mem_append_right _ List.mem_cons_self)
    simp only [] at hbehind
    omega

/-- A call that finds the body incomplete goes wrong by its sum only. -/
theorem strays_incomplete (hmiss : (zs.flatten ++ c).length < k + lineRun (zs.flatten.drop k) + n)
    (hover : ¬ Overflows k n (zs.flatten, zs.flatten ++ c)) :
    Strays k n zs (c :: ys) ↔ Strays k n (zs ++ [c]) ys := by
  rw [strays_cons, or_iff_right hover]
  refine or_iff_right ?_
  rintro ⟨_, hfull, hsum, _⟩
  omega

end Cuts

/-! ## The calls on a body -/

section Body

variable (fs : FileSystem) {m : Members} {h c : List UInt8} {k u : Nat} {q : Conn}
  {zs ys : List (List UInt8)}

/-- Nothing has gone wrong in the calls on `zs`, and the scanner and the line are where they have
left them. -/
structure BodyAt (k : Nat) (h : List UInt8) (m : Members) (zs : List (List UInt8))
    (x : List UInt8) (q : Conn) : Prop where
  inBody : InBody h m (zs.flatten.drop k) x q
  start : q.line.startLine = k + lineStart k zs
  behind : ∀ u ∈ calls [] zs, (u.2.length : Int) < k + lineRun (u.1.drop k) + m.contentLength

section Serve

variable (hu : m.url = some u) (hs : m.checkState = .content) (hn : 0 < m.contentLength)
  (hlen : h.length = k)

include hu hs hn hlen

/-- A call and what comes after it. -/
theorem strays_step {d : List UInt8} (hq : BodyAt k h m zs ((zs.flatten ++ c).drop k) q)
    (hd : (zs.flatten ++ c).drop k = zs.flatten.drop k ++ d) (hk : k ≤ (zs.flatten ++ c).length)
    (hfit : (zs ++ c :: ys).flatten.length ≤ readBufferSize) (fuel : Nat)
    (hf : q.line.ahead.length + 2 ≤ fuel)
    (hrest : ∀ q', BodyAt k h m (zs ++ [c]) ((zs ++ [c]).flatten.drop k) q' →
      (serve fs q' ys = none ↔ Strays k m.contentLength (zs ++ [c]) ys)) :
    serveOn fs (finish fs (parseReadLoop fuel .lineOk q)) ys = none ↔
      Strays k m.contentLength zs (c :: ys) := by
  have hin := hq.inBody
  have hstart := hq.start
  obtain ⟨hund, hdone, hno⟩ := bodyTest_spec h.length m.contentLength (zs.flatten.drop k)
    ((zs.flatten ++ c).drop k)
  obtain ⟨_, hmax, _⟩ := lineRun_append (zs.flatten.drop k) d
  rw [← hd] at hmax
  have hsum : Overflows k m.contentLength (zs.flatten, zs.flatten ++ c) ↔
      2 ^ 31 ≤ m.contentLength + k + lineRun (zs.flatten.drop k) +
        linesLength (((zs.flatten ++ c).drop k).drop (lineRun (zs.flatten.drop k))) := by
    simp only [Overflows]
    omega
  have hxlen : ((zs.flatten ++ c).drop k).length = (zs.flatten ++ c).length - k :=
    List.length_drop
  have hall : (zs.flatten ++ c).length ≤ readBufferSize := by
    rw [List.append_cons, List.flatten_append, List.length_append, flatten_concat] at hfit
    omega
  have hstartle := hin.wf.start_le
  have hchecked := hin.checked
  rcases body_look hin hs hn ⟨d, hd⟩ fuel hf with ⟨htest, hout⟩ | ⟨htest, hfull, hroom⟩ |
    ⟨htest, q', hout, hq', hline⟩
  · have hover := hund htest
    refine ⟨fun _ => strays_cons.mpr (.inl (hsum.mpr (by omega))), fun _ => ?_⟩
    rw [finish_undefined fs hout]
    rfl
  · have hcomplete := hdone htest
    rw [strays_complete (by omega) (by omega) hfit (by omega)]
    by_cases hin : q.line.startLine + m.contentLength < readBufferSize
    · obtain ⟨q', hout, hst, _⟩ := hroom hin
      obtain ⟨code, q'', hdo, _⟩ := doRequest_some fs (hst.symm ▸ hu : q'.state.url = some u)
      refine ⟨fun hnone => ?_, fun hfill => ?_⟩
      · rw [hout, finish, serveOn_decided (doRequest_decided fs q'), hdo] at hnone
        cases hnone
      · obtain ⟨_, _, hsize, hfirst⟩ := hfill
        omega
    · refine ⟨fun _ => ⟨hq.behind, by omega, by omega, by omega⟩, fun _ => ?_⟩
      rw [finish_undefined fs (hfull (by omega))]
      rfl
  · obtain ⟨hmiss, hsmall⟩ := hno htest
    have hover : ¬ Overflows k m.contentLength (zs.flatten, zs.flatten ++ c) := by
      rw [hsum]
      omega
    rw [strays_incomplete (by omega) hover, hout]
    refine hrest q' ⟨?_, ?_, ?_⟩
    · rw [flatten_concat]
      exact hq'
    · rw [lineStart, List.dropLast_concat, flatten_concat]
      omega
    · rw [calls_append, List.nil_append, List.forall_mem_append]
      refine ⟨hq.behind, List.forall_mem_singleton.mpr ?_⟩
      show ((zs.flatten ++ c).length : Int) < k + lineRun (zs.flatten.drop k) + m.contentLength
      omega

/-- By induction on the chunks. -/
theorem strays_rest (ys : List (List UInt8)) (hq : BodyAt k h m zs (zs.flatten.drop k) q)
    (hk : k ≤ zs.flatten.length) (hfit : (zs ++ ys).flatten.length ≤ readBufferSize) :
    serve fs q ys = none ↔ Strays k m.contentLength zs ys := by
  induction ys generalizing zs q with
  | nil => exact ⟨fun hnone => (nomatch hnone), fun hstray => absurd hstray strays_nil⟩
  | cons c ys ih =>
    have hdrop : (zs.flatten ++ c).drop k = zs.flatten.drop k ++ c :=
      List.drop_append_of_le_length hk
    have hqc := hq.inBody.receive c (by
      simp only [List.flatten_append, List.flatten_cons, List.length_append] at hfit
      rw [List.length_append, List.length_drop]
      omega)
    have hahead := LineBuf.ahead_length hqc.wf
    have hkc : k ≤ (zs ++ [c]).flatten.length := by
      rw [flatten_concat, List.length_append]
      omega
    rw [serve_cons, processRead, parseRead]
    have hat : BodyAt k h m zs ((zs.flatten ++ c).drop k) (q.receive c) :=
      ⟨hdrop.symm ▸ hqc, hq.start, hq.behind⟩
    refine strays_step fs hu hs hn hlen hat hdrop ?_ hfit _ ?_ ?_
    · rw [← flatten_concat]
      exact hkc
    · omega
    · intro q' hq'
      exact ih hq' hkc (by rw [← List.append_cons]; exact hfit)

end Serve

end Body

/-! ## All streams -/

section Streams

variable {fs : FileSystem} {m : Members} {k fuel : Nat} {n : Int} {c body : List UInt8}
  {xs ys chunks : List (List UInt8)}

/-- The calls on a stream with a body, from the one in which the head ends. -/
theorem serve_body_none (hb : HasBody (xs.flatten ++ c) k n body) (hx : xs.flatten.length ≤ k)
    (hfit : (xs ++ c :: ys).flatten.length ≤ readBufferSize)
    (hf : (run handleHead ((init m).receive (xs.flatten ++ c))).2.line.ahead.length + 2 ≤ fuel) :
    serveOn fs (finish fs (headResult fuel
        (run handleHead ((init m).receive (xs.flatten ++ c))))) ys = none ↔
      OutOfBounds (xs ++ c :: ys) := by
  have hflat : (xs ++ c :: ys).flatten = xs.flatten ++ c ++ ys.flatten := by
    rw [List.flatten_append, List.flatten_cons, List.append_assoc]
  have hall : HasBody (xs ++ c :: ys).flatten k n (body ++ ys.flatten) := by
    rw [hflat]
    exact hb.append _
  have hfit' : (xs.flatten ++ c).length ≤ readBufferSize := by
    rw [hflat, List.length_append] at hfit
    omega
  obtain ⟨hstop, _, _, _, _, hbody⟩ := hb.stop m
  obtain ⟨m', h, u, hat, hmn, hms⟩ := hb.atHead hfit' m
  obtain ⟨hdrop, hlen⟩ := hb.split
  rw [outOfBounds_iff hall]
  generalize run handleHead ((init m).receive (xs.flatten ++ c)) = t at *
  obtain ⟨e, q⟩ := t
  have hstop : e = .stop (lengthEnd n).2 := hstop
  rw [hstop]
  subst hmn
  by_cases hpos : 0 < m'.contentLength
  · have hend : lengthEnd m'.contentLength = (.content, .content) := if_pos (by omega)
    rw [hend] at hms
    rw [hend]
    show serveOn fs (finish fs (parseReadLoop fuel .lineOk q)) ys = none ↔ _
    have hhead : Strays k m'.contentLength [] (xs ++ c :: ys) ↔
        Strays k m'.contentLength xs (c :: ys) := strays_head hpos xs hx
    rw [or_iff_right (by omega), and_iff_right hpos, hhead]
    have hnothing : xs.flatten.drop k = [] := List.drop_of_length_le hx
    have hin : InBody h m' (xs.flatten.drop k) ((xs.flatten ++ c).drop k) q := by
      rw [hnothing, hdrop, ← hbody]
      exact hat.inBody
    have hd : (xs.flatten ++ c).drop k = xs.flatten.drop k ++ body := by
      rw [hnothing, hdrop]
      rfl
    refine strays_step fs hat.url hms hpos hat.length ⟨hin, ?_, ?_⟩ hd (by omega) hfit fuel hf ?_
    · rw [lineStart_head hx]
      exact hat.start
    · intro v hv
      have hv := calls_head_length hx hv
      omega
    · intro q' hq'
      refine strays_rest fs hat.url hms hpos hat.length ys hq' ?_ ?_
      · rw [flatten_concat]
        omega
      · rw [← List.append_cons]
        exact hfit
  · have hcode := hat.bodiless hms (by omega) fs fuel (by omega)
    have hnone := bodilessCode_none_iff (h := h) fs hat.url
    rw [hat.length] at hnone
    rw [serveOn_decided (by rw [hcode]; exact bodilessCode_decided fs m' h),
      ← Option.map_eq_none_iff (f := Prod.fst), hcode, hnone]
    exact (or_iff_left fun h => hpos h.1).symm

/-- The calls come to an undefined operation on those streams and cuts, and on no others. -/
theorem serve_none_iff (fs : FileSystem) (m : Members) (chunks : List (List UInt8))
    (hfit : chunks.flatten.length ≤ readBufferSize) :
    serve fs (init m) chunks = none ↔ OutOfBounds chunks := by
  have hinit : run handleHead (init m) = (.lineOpen, init m) := rfl
  rcases serve_head fs chunks (init m) (init_wf m) CheckState.noConfusion (.inl rfl) with
    ⟨hu, hserve⟩ | ⟨xs, c, ys, r, fuel, rfl, hu, hr, hf, hserve⟩
  · rw [hinit] at hserve
    refine ⟨fun hnone => ?_, fun ⟨_, _, _, hb, _⟩ => absurd hb (hasBody_undecided rfl hu)⟩
    rw [hnone] at hserve
    cases hserve
  · rw [hinit] at hserve
    rw [hserve]
    rcases stop_cases hr with rfl | ⟨k, n, body, hb, _⟩
    · refine ⟨fun hnone => ?_, fun ⟨k, n, body, hb, _⟩ => ?_⟩
      · generalize run handleHead ((init m).receive (xs.flatten ++ c)) = t at hr hnone
        obtain ⟨e, q⟩ := t
        have hr : e = .stop .badRequest := hr
        rw [hr] at hnone
        cases hnone
      · rw [List.flatten_append, List.flatten_cons, ← List.append_assoc] at hb
        exact absurd hb (not_hasBody_of_badRequest hr ys.flatten)
    · have hx : xs.flatten.length ≤ k := by
        by_contra hgt
        -- the head would have been there before the call
        exact hasBody_undecided rfl hu (hb.of_append (by omega))
      exact serve_body_none hb hx hfit hf

/-- Every index and every sum is within its limit, except on those streams and cuts. -/
theorem accesses_safe_iff (m : Members) (chunks : List (List UInt8)) :
    (∀ a ∈ accesses (init m) chunks, a.Safe) ↔ ¬ OutOfBounds (admitted 0 chunks) := by
  have hserve : (∀ a ∈ accesses (init m) chunks, a.Safe) ↔
      serve noFiles (init m) (admitted 0 chunks) ≠ none :=
    accesses_serve (init_aimed m) (init_fits m)
  have hfit : 0 + (admitted 0 chunks).flatten.length ≤ readBufferSize :=
    admitted_length (Nat.zero_le _)
  rw [hserve, Ne, serve_none_iff noFiles m _ (by omega)]

/-- `GET / HTTP/1.1`, `Content-Length: -99` and the empty line. -/
def headOfMinus : List UInt8 :=
  rootRequest ++ [cr, lf] ++ contentLengthText ++ [32, 45, 57, 57, cr, lf, cr, lf]

/-- The NUL behind the body is put 60 bytes in front of the buffer. -/
theorem accesses_before_buffer : ¬ ∀ (m : Members) (chunks : List (List UInt8)),
    ∀ a ∈ accesses (init m) chunks, a.Safe := by
  intro h
  have hsafe := h Members.blank [headOfMinus] (.index (-60)) (by decide +kernel)
  exact absurd hsafe.1 (by decide)

end Streams

end Unpvol1.HttpConn
