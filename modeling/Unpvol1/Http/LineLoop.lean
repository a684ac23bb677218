import Unpvol1.Lib.CString
import Unpvol1.Http.LineBuf

/-!
# Http.LineLoop

The loop both parsers run: take a line with `parse_line`, hand it to the check state's function,
until that function decides, the line is bad, or no line is complete.

* `Handled` — what handling a line gives; `Local` — it reads and writes the line's string only.
* `lineStep`, `run` — one line, and the loop. `run_eq` is the loop's equation, without the counter.
* `run_receive_closed`, `run_receive_open` — a decided run stays decided whatever is received later,
  and an undecided one is continued with the same outcome as a run that starts over.
* `foldLines`, `run_fold` — a run from a line's start as a fold over the lines of the bytes ahead.
-/

namespace Unpvol1.Http

/-- The buffer and the state after a line, and the result if there is one. -/
structure Handled (σ ρ : Type) where
  readBuf : List UInt8
  state : σ
  result : Option ρ
  deriving DecidableEq, Repr

structure Parser (σ : Type) where
  line : LineBuf
  state : σ
  deriving DecidableEq, Repr

def Parser.receive {σ : Type} (p : Parser σ) (chunk : List UInt8) : Parser σ :=
  { p with line := p.line.receive chunk }

/-- How the loop ends: `LINE_OPEN`, `LINE_BAD`, or a line that decides. -/
inductive Exit (ρ : Type) where
  | lineOpen
  | lineBad
  | stop (r : ρ)
  deriving DecidableEq, Repr

section Loop

variable {σ ρ : Type} (handle : List UInt8 → Nat → σ → Handled σ ρ)

/-- `text = get_line(); m_start_line = m_checked_idx;`, and the line handled. -/
def lineTaken (b : LineBuf) (s : σ) : Option (Exit ρ) × Parser σ :=
  let h := handle b.readBuf b.startLine s
  (h.result.map .stop,
    { line := { b with readBuf := h.readBuf, startLine := b.checkedIdx }, state := h.state })

def lineStep (p : Parser σ) : Option (Exit ρ) × Parser σ :=
  match p.line.parseLine with
  | (.lineOk, b) => lineTaken handle b p.state
  | (.lineBad, b) => (some .lineBad, { p with line := b })
  | (.lineOpen, b) => (some .lineOpen, { p with line := b })

def lineLoop : Nat → Parser σ → Exit ρ × Parser σ
  | 0, p => (.lineOpen, p)
  | fuel + 1, p =>
    match lineStep handle p with
    | (none, p') => lineLoop fuel p'
    | (some e, p') => (e, p')

def run (p : Parser σ) : Exit ρ × Parser σ := lineLoop handle (p.line.readIdx + 1) p

/-- The handler keeps the buffer's length, and what is behind the line's terminator neither matters
to it nor is changed. -/
structure Local : Prop where
  length : ∀ buf text s, (handle buf text s).readBuf.length = buf.length
  append : ∀ buf rest text s, Terminated buf text → handle (buf ++ rest) text s =
    { handle buf text s with readBuf := (handle buf text s).readBuf ++ rest }

end Loop

namespace Parser

variable {σ : Type} {p : Parser σ}

theorem receive_nil (p : Parser σ) : p.receive [] = p := by
  rw [receive, LineBuf.receive_nil]

theorem receive_receive (hw : p.line.Wf) (c d : List UInt8) :
    (p.receive c).receive d = p.receive (c ++ d) := by
  simp only [receive, LineBuf.receive_receive hw.read_le]

end Parser

/-! ## One line -/

section Step

variable {σ ρ : Type} {handle : List UInt8 → Nat → σ → Handled σ ρ} {p p' : Parser σ}
  {b : LineBuf} {s : σ} {k : Nat} {c : List UInt8}

/-- The buffer at a line's end: up to the first NUL the line's string ends, and a NUL follows. -/
theorem endLine_split (hk : b.startLine ≤ k) (hle : k + 2 ≤ b.readBuf.length) :
    ∃ u v, (b.endLine k).readBuf = u ++ 0 :: v ∧ u.length = k + 1 ∧ Terminated u b.startLine := by
  refine ⟨(b.endLine k).readBuf.take (k + 1), (b.endLine k).readBuf.drop (k + 2), ?_, ?_, ?_⟩
  · have hget : (b.endLine k).readBuf[k + 1]? = some 0 := by
      simp only [LineBuf.endLine]
      exact List.getElem?_set_self (by rw [List.length_set]; omega)
    have hlt : k + 1 < (b.endLine k).readBuf.length := (List.getElem?_eq_some_iff.mp hget).1
    have hzero : (b.endLine k).readBuf[k + 1] = 0 := (List.getElem?_eq_some_iff.mp hget).2
    conv_lhs => rw [← List.take_append_drop (k + 1) (b.endLine k).readBuf]
    rw [List.drop_eq_getElem_cons hlt, hzero]
  · rw [List.length_take]
    simp only [LineBuf.endLine, List.length_set]
    omega
  · refine terminated_of_getElem? (k := k) ?_ hk
    rw [List.getElem?_take_of_lt (Nat.lt_succ_self k)]
    simp only [LineBuf.endLine]
    rw [List.getElem?_set_ne (Nat.succ_ne_self k), List.getElem?_set_self (by omega)]

theorem drop_take_behind {w v : List UInt8} {n : Nat} (hw : w.length = k + 1) (hn : k + 2 ≤ n) :
    ((w ++ 0 :: v).take n).drop (k + 2) = v.take (n - (k + 2)) := by
  have h1 : w.length ≤ n := by omega
  have h2 : n - w.length = n - (k + 2) + 1 := by omega
  have h3 : k + 2 = w.length + 1 := by omega
  rw [List.take_append, List.take_of_length_le h1, h2, List.take_succ_cons, h3,
    ← List.drop_drop (i := 1), List.drop_left]
  rfl

section Taken

variable (hloc : Local handle) (hw : b.Wf) (hk : b.startLine ≤ k) (hle : k + 2 ≤ b.readIdx)

include hloc hw hk hle

theorem lineTaken_wf (s : σ) : (lineTaken handle (b.endLine k) s).2.line.Wf := by
  have hlen := hw.read_le
  obtain ⟨u, v, hbuf, hu, ht⟩ := endLine_split hk (by omega)
  have hnew : (lineTaken handle (b.endLine k) s).2.line.readBuf =
      (handle u b.startLine s).readBuf ++ 0 :: v := by
    show (handle (b.endLine k).readBuf b.startLine s).readBuf = _
    rw [hbuf, hloc.append _ _ _ _ ht]
  have hnewlen : (handle u b.startLine s).readBuf.length = k + 1 := by
    rw [hloc.length, hu]
  refine ⟨Nat.le_refl _, hle, ?_, ?_⟩
  · have hold : (u ++ 0 :: v).length = b.readBuf.length := by
      rw [← hbuf]
      simp only [LineBuf.endLine, List.length_set]
    rw [hnew, List.length_append, hnewlen, ← hu, ← List.length_append, hold]
    exact hlen
  · intro i hi
    have hi : k + 2 = i + 1 := hi
    have hik : i = k + 1 := by omega
    rw [LineBuf.byte, hnew, hik, ← hnewlen, List.getD_eq_getElem?_getD,
      List.getElem?_append_right (Nat.le_refl _), Nat.sub_self]
    show (0 : UInt8) ≠ cr
    decide

theorem lineTaken_ahead (s : σ) :
    (lineTaken handle (b.endLine k) s).2.line.ahead = (b.endLine k).ahead := by
  have hlen := hw.read_le
  obtain ⟨u, v, hbuf, hu, ht⟩ := endLine_split hk (by omega)
  have hnewlen : (handle u b.startLine s).readBuf.length = k + 1 := by
    rw [hloc.length, hu]
  have hold : (b.endLine k).ahead = v.take (b.readIdx - (k + 2)) := by
    rw [LineBuf.ahead, hbuf]
    exact drop_take_behind hu hle
  show ((handle (b.endLine k).readBuf b.startLine s).readBuf.take b.readIdx).drop (k + 2) = _
  rw [hbuf, hloc.append _ _ _ _ ht, hold]
  exact drop_take_behind hnewlen hle

/-- Handling a line and receiving more commute. -/
theorem lineTaken_receive (s : σ) (c : List UInt8) :
    lineTaken handle ((b.endLine k).receive c) s =
      ((lineTaken handle (b.endLine k) s).1, (lineTaken handle (b.endLine k) s).2.receive c) := by
  have hlen := hw.read_le
  obtain ⟨u, v, hbuf, hu, ht⟩ := endLine_split hk (by omega)
  have hnewlen : (handle u b.startLine s).readBuf.length = k + 1 := by
    rw [hloc.length, hu]
  have hover : ((b.endLine k).receive c).readBuf =
      u ++ overwrite (0 :: v) (b.readIdx - (k + 1)) c := by
    show overwrite (b.endLine k).readBuf b.readIdx c = _
    rw [hbuf, overwrite_append (by omega), hu]
  have hhandle : handle ((b.endLine k).receive c).readBuf b.startLine s =
      { handle (b.endLine k).readBuf b.startLine s with
        readBuf :=
          overwrite (handle (b.endLine k).readBuf b.startLine s).readBuf b.readIdx c } := by
    rw [hover, hbuf, hloc.append _ _ _ _ ht, hloc.append _ _ _ _ ht,
      overwrite_append (by rw [hnewlen]; omega), hnewlen]
  simp only [lineTaken, Parser.receive, LineBuf.receive] at hhandle ⊢
  have hstart : (b.endLine k).startLine = b.startLine := rfl
  have hidx : (b.endLine k).readIdx = b.readIdx := rfl
  simp only [hstart, hidx] at hhandle ⊢
  rw [hhandle]

end Taken

/-- A line taken is not a reason to wait, nor a line error. -/
theorem lineTaken_exit (b : LineBuf) (s : σ) :
    (lineTaken handle b s).1 ≠ some .lineOpen ∧ (lineTaken handle b s).1 ≠ some .lineBad := by
  simp only [lineTaken]
  cases (handle b.readBuf b.startLine s).result with
  | none => exact ⟨nofun, nofun⟩
  | some r => exact ⟨nofun, nofun⟩

/-- One pass through the loop, by what the scanner finds ahead. -/
theorem lineStep_cases (hloc : Local handle) (hw : p.line.Wf) :
    (∃ l r, p.line.ahead = l ++ cr :: lf :: r ∧ Clean l ∧ lineStep handle p =
      lineTaken handle (p.line.endLine (p.line.checkedIdx + l.length)) p.state ∧
      (lineStep handle p).2.line.Wf ∧ (lineStep handle p).2.line.ahead = r) ∨
    (∃ l held, p.line.ahead = l ++ Tail.heldBytes held ∧ Clean l ∧
      lineStep handle p = (some .lineOpen, { p with line := p.line.skip l.length })) ∨
    (∃ l r, p.line.ahead = l ++ r ∧ Clean l ∧ Stray r ∧
      lineStep handle p = (some .lineBad, { p with line := p.line.skip l.length })) := by
  rcases LineBuf.parseLine_cases hw with ⟨l, r, ha, hl, he⟩ | ⟨l, held, ha, hl, he⟩ |
    ⟨l, r, ha, hl, hr, he⟩
  · have hlen := LineBuf.readIdx_of_line hw ha
    have hstart := hw.start_le
    have hk : p.line.startLine ≤ p.line.checkedIdx + l.length := by omega
    have hle : p.line.checkedIdx + l.length + 2 ≤ p.line.readIdx := by omega
    have hstep : lineStep handle p =
        lineTaken handle (p.line.endLine (p.line.checkedIdx + l.length)) p.state := by
      simp only [lineStep, he]
    refine .inl ⟨l, r, ha, hl, hstep, ?_, ?_⟩
    · rw [hstep]
      exact lineTaken_wf hloc hw hk hle p.state
    · rw [hstep, lineTaken_ahead hloc hw hk hle]
      exact LineBuf.endLine_ahead_of_line ha
  · refine .inr (.inl ⟨l, held, ha, hl, ?_⟩)
    simp only [lineStep, he]
  · refine .inr (.inr ⟨l, r, ha, hl, hr, ?_⟩)
    simp only [lineStep, he]

theorem lineStep_wf (hloc : Local handle) (hw : p.line.Wf) : (lineStep handle p).2.line.Wf := by
  rcases lineStep_cases hloc hw with ⟨_, _, _, _, _, h, _⟩ | ⟨l, _, ha, hl, he⟩ |
    ⟨l, _, ha, hl, _, he⟩
  · exact h
  · rw [he]
    exact LineBuf.skip_wf hw hl ha
  · rw [he]
    exact LineBuf.skip_wf hw hl ha

/-- A pass that goes on has taken a line. -/
theorem lineStep_lt (hloc : Local handle) (hw : p.line.Wf) (h : lineStep handle p = (none, p')) :
    p'.line.ahead.length < p.line.ahead.length := by
  rcases lineStep_cases hloc hw with ⟨l, r, ha, _, _, _, hr⟩ | ⟨_, _, _, _, he⟩ |
    ⟨_, _, _, _, _, he⟩
  · rw [h] at hr
    have hr : p'.line.ahead = r := hr
    rw [hr, ha, List.length_append, List.length_cons, List.length_cons]
    omega
  · rw [he] at h
    cases h
  · rw [he] at h
    cases h

/-- A pass that does not wait for bytes is the same whatever is received later. -/
theorem lineStep_receive_closed (hloc : Local handle) (hw : p.line.Wf) {e : Option (Exit ρ)}
    (h : lineStep handle p = (e, p')) (he : e ≠ some .lineOpen) (c : List UInt8) :
    lineStep handle (p.receive c) = (e, p'.receive c) := by
  have hpar : (p.receive c).line = p.line.receive c := rfl
  rcases LineBuf.parseLine_cases hw with ⟨l, r, ha, hl, hp⟩ | ⟨l, held, ha, hl, hp⟩ |
    ⟨l, r, ha, hl, hr, hp⟩
  · have hlen := LineBuf.readIdx_of_line hw ha
    have hstart := hw.start_le
    have hp' := LineBuf.parseLine_receive_closed hw (by decide) hp c
    simp only [lineStep, hp] at h
    simp only [lineStep, hpar, hp']
    show lineTaken handle _ p.state = _
    rw [lineTaken_receive hloc hw (by omega) (by omega), h]
  · simp only [lineStep, hp] at h
    cases h
    exact absurd rfl he
  · have hp' := LineBuf.parseLine_receive_closed hw (by decide) hp c
    simp only [lineStep, hp] at h
    cases h
    simp only [lineStep, hpar, hp']
    rfl

/-- A pass that waits for bytes does the same again from where it stopped. -/
theorem lineStep_receive_open (hw : p.line.Wf)
    (h : lineStep handle p = (some .lineOpen, p')) (c : List UInt8) :
    lineStep handle (p.receive c) = lineStep handle (p'.receive c) := by
  rcases LineBuf.parseLine_cases hw with ⟨l, r, ha, hl, hp⟩ | ⟨l, held, ha, hl, hp⟩ |
    ⟨l, r, ha, hl, hr, hp⟩
  · simp only [lineStep, hp] at h
    exact absurd (congrArg Prod.fst h) (lineTaken_exit _ _).1
  · have hp' := LineBuf.parseLine_receive_open hw hp c
    simp only [lineStep, hp] at h
    cases h
    simp only [lineStep, Parser.receive, hp']
  · simp only [lineStep, hp] at h
    cases h

end Step

/-! ## The loop -/

section Run

variable {σ ρ : Type} {handle : List UInt8 → Nat → σ → Handled σ ρ}

theorem lineLoop_fuel (hloc : Local handle) (n m : Nat) (p : Parser σ) (hw : p.line.Wf)
    (hn : p.line.ahead.length < n) (hm : p.line.ahead.length < m) :
    lineLoop handle n p = lineLoop handle m p := by
  induction n generalizing m p with
  | zero => omega
  | succ n ih =>
    cases m with
    | zero => omega
    | succ m =>
      simp only [lineLoop]
      cases hs : lineStep handle p with
      | mk e p' =>
        cases e with
        | some e => rfl
        | none =>
          have hlt := lineStep_lt hloc hw hs
          have hw' := lineStep_wf hloc hw
          rw [hs] at hw'
          exact ih m p' hw' (by omega) (by omega)

/-- The equation of the `while` loop. -/
theorem run_eq (hloc : Local handle) {p : Parser σ} (hw : p.line.Wf) : run handle p =
    match lineStep handle p with
    | (none, p') => run handle p'
    | (some e, p') => (e, p') := by
  rw [run, lineLoop]
  cases hs : lineStep handle p with
  | mk e p' =>
    cases e with
    | some e => rfl
    | none =>
      have hlt := lineStep_lt hloc hw hs
      have hw' := lineStep_wf hloc hw
      rw [hs] at hw'
      have hp := LineBuf.ahead_length hw
      have hp' : p'.line.ahead.length = p'.line.readIdx - p'.line.checkedIdx :=
        LineBuf.ahead_length hw'
      exact lineLoop_fuel hloc _ _ p' hw' (by omega) (by omega)

/-- What holds of a parser when it holds of the one a pass leads to, holds of every parser. -/
theorem run_induction (hloc : Local handle) {motive : Parser σ → Prop}
    (hstep : ∀ p, p.line.Wf → (∀ p', lineStep handle p = (none, p') → motive p') → motive p)
    (p : Parser σ) (hw : p.line.Wf) : motive p := by
  induction hn : p.line.ahead.length using Nat.strongRecOn generalizing p with
  | _ n ih =>
    refine hstep p hw fun p' hs => ?_
    have hlt := lineStep_lt hloc hw hs
    have hw' := lineStep_wf hloc hw
    rw [hs] at hw'
    exact ih p'.line.ahead.length (by omega) p' hw' rfl

/-- What a pass keeps, a run keeps. -/
theorem run_keeps (hloc : Local handle) (inv : Parser σ → Prop)
    (hstep : ∀ p, p.line.Wf → inv p → inv (lineStep handle p).2) (p : Parser σ) (hw : p.line.Wf)
    (hi : inv p) : inv (run handle p).2 := by
  refine run_induction hloc (motive := fun p => inv p → inv (run handle p).2) ?_ p hw hi
  intro p hw ih hi
  rw [run_eq hloc hw]
  have hi' := hstep p hw hi
  cases hs : lineStep handle p with
  | mk e p' =>
    rw [hs] at hi'
    cases e with
    | some e => exact hi'
    | none => exact ih p' hs hi'

theorem run_wf (hloc : Local handle) (p : Parser σ) (hw : p.line.Wf) :
    (run handle p).2.line.Wf :=
  run_keeps hloc (fun p => p.line.Wf) (fun _ _ h => lineStep_wf hloc h) p hw hw

/-- A run reads nothing, and the buffer keeps its size. -/
theorem run_size (hloc : Local handle) (p : Parser σ) (hw : p.line.Wf) :
    (run handle p).2.line.readIdx = p.line.readIdx ∧
      (run handle p).2.line.readBuf.length = p.line.readBuf.length := by
  refine run_keeps hloc (fun q => q.line.readIdx = p.line.readIdx ∧
    q.line.readBuf.length = p.line.readBuf.length) ?_ p hw ⟨rfl, rfl⟩
  intro q hwq hq
  rcases lineStep_cases hloc hwq with ⟨l, r, _, _, he, _, _⟩ | ⟨l, held, _, _, he⟩ |
    ⟨l, r, _, _, _, he⟩
  · rw [he]
    refine ⟨hq.1, ?_⟩
    show (handle _ _ _).readBuf.length = _
    rw [hloc.length]
    simp only [LineBuf.endLine, List.length_set]
    exact hq.2
  · rw [he]
    exact hq
  · rw [he]
    exact hq

/-- A decided run stays decided, whatever is received later. -/
theorem run_receive_closed (hloc : Local handle) (c : List UInt8) (p : Parser σ) (hw : p.line.Wf)
    (h : (run handle p).1 ≠ .lineOpen) :
    run handle (p.receive c) = ((run handle p).1, (run handle p).2.receive c) := by
  refine run_induction hloc (motive := fun p => (run handle p).1 ≠ .lineOpen →
    run handle (p.receive c) = ((run handle p).1, (run handle p).2.receive c)) ?_ p hw h
  intro p hw ih h
  have hwc : (p.receive c).line.Wf := LineBuf.receive_wf hw c
  rw [run_eq hloc hw] at h ⊢
  rw [run_eq hloc hwc]
  cases hs : lineStep handle p with
  | mk e p' =>
    rw [hs] at h
    cases e with
    | some e =>
      have he : e ≠ .lineOpen := h
      rw [lineStep_receive_closed hloc hw hs (fun heq => he (Option.some.inj heq)) c]
    | none =>
      rw [lineStep_receive_closed hloc hw hs (by simp) c]
      exact ih p' hs h

/-- An undecided run is continued, after more is received, as a run from the start would go. -/
theorem run_receive_open (hloc : Local handle) (c : List UInt8) (p : Parser σ) (hw : p.line.Wf)
    (h : (run handle p).1 = .lineOpen) :
    run handle (p.receive c) = run handle ((run handle p).2.receive c) := by
  refine run_induction hloc (motive := fun p => (run handle p).1 = .lineOpen →
    run handle (p.receive c) = run handle ((run handle p).2.receive c)) ?_ p hw h
  intro p hw ih h
  have hwc : (p.receive c).line.Wf := LineBuf.receive_wf hw c
  rw [run_eq hloc hw] at h ⊢
  cases hs : lineStep handle p with
  | mk e p' =>
    rw [hs] at h
    cases e with
    | some e =>
      have he : e = .lineOpen := h
      subst he
      have hw' := lineStep_wf hloc hw
      rw [hs] at hw'
      have hwc' : (p'.receive c).line.Wf := LineBuf.receive_wf hw' c
      show run handle (p.receive c) = run handle (p'.receive c)
      rw [run_eq hloc hwc, run_eq hloc hwc', lineStep_receive_open hw hs c]
    | none =>
      rw [run_eq hloc hwc, lineStep_receive_closed hloc hw hs (by simp) c]
      exact ih p' hs h

/-- A line error stays where it is. -/
theorem run_bad (hloc : Local handle) (p : Parser σ) (hw : p.line.Wf)
    (h : (run handle p).1 = .lineBad) : run handle (run handle p).2 = run handle p := by
  refine run_induction hloc (motive := fun p => (run handle p).1 = .lineBad →
    run handle (run handle p).2 = run handle p) ?_ p hw h
  intro p hw ih h
  rw [run_eq hloc hw] at h ⊢
  rcases lineStep_cases hloc hw with ⟨l, r, _, _, he, hw', _⟩ | ⟨l, held, _, _, he⟩ |
    ⟨l, r, ha, hl, hr, he⟩
  · cases hs : lineStep handle p with
    | mk e p' =>
      rw [hs] at h
      cases e with
      | none => exact ih p' hs h
      | some e =>
        have he' : e = .lineBad := h
        rw [he'] at hs
        exact absurd (congrArg Prod.fst (he.symm.trans hs)) (lineTaken_exit _ _).2
  · rw [he] at h
    cases h
  · -- the scanner stands before the stray byte
    rw [he]
    have hw' : (p.line.skip l.length).Wf := LineBuf.skip_wf hw hl ha
    have hahead : (p.line.skip l.length).ahead = r := by
      rw [LineBuf.ahead_skip, ha, List.drop_left]
    have hscan : scan (p.line.skip l.length).ahead = .tail (.stray [] r) := by
      rw [hahead]
      exact scan_tail (t := .stray [] r) ⟨Clean.nil, hr⟩
    have hparse := LineBuf.parseLine_eq hw'
    rw [hscan] at hparse
    show run handle { p with line := p.line.skip l.length } = _
    rw [run_eq hloc hw']
    simp only [lineStep, hparse, LineBuf.scanned]
    rfl

/-- An undecided run, and more bytes: the run from the start goes on as the run from where it
stopped. -/
theorem run_receive_undecided (hloc : Local handle) (c : List UInt8) (p : Parser σ)
    (hw : p.line.Wf) (h : (run handle p).1 = .lineOpen ∨ (run handle p).1 = .lineBad) :
    run handle (p.receive c) = run handle ((run handle p).2.receive c) := by
  rcases h with h | h
  · exact run_receive_open hloc c p hw h
  · have hbad := run_bad hloc p hw h
    have h1 := run_receive_closed hloc c p hw (by rw [h]; exact nofun)
    have h2 := run_receive_closed hloc c (run handle p).2 (run_wf hloc p hw)
      (by rw [hbad, h]; exact nofun)
    rw [hbad] at h2
    rw [h1, h2]

/-- What handling a line keeps, a run keeps. -/
theorem run_state (hloc : Local handle) {inv : σ → Prop} {good : ρ → Prop}
    (hkeep : ∀ buf text s, inv s → inv (handle buf text s).state ∧
      ∀ r, (handle buf text s).result = some r → good r)
    (p : Parser σ) (hw : p.line.Wf) (hi : inv p.state) :
    inv (run handle p).2.state ∧ ∀ r, (run handle p).1 = .stop r → good r := by
  refine run_induction hloc (motive := fun p => inv p.state →
    inv (run handle p).2.state ∧ ∀ r, (run handle p).1 = .stop r → good r) ?_ p hw hi
  intro p hw ih hi
  rw [run_eq hloc hw]
  rcases lineStep_cases hloc hw with ⟨l, r, _, _, he, _, _⟩ | ⟨l, held, _, _, he⟩ |
    ⟨l, r, _, _, _, he⟩
  · have hk := hkeep (p.line.endLine (p.line.checkedIdx + l.length)).readBuf
      (p.line.endLine (p.line.checkedIdx + l.length)).startLine p.state hi
    cases hres : (handle (p.line.endLine (p.line.checkedIdx + l.length)).readBuf
      (p.line.endLine (p.line.checkedIdx + l.length)).startLine p.state).result with
    | none =>
      have hs : lineStep handle p = (none, (lineStep handle p).2) := by
        rw [he]
        simp only [lineTaken, hres, Option.map_none]
      rw [hs]
      refine ih _ hs ?_
      rw [he]
      exact hk.1
    | some r =>
      have hs : lineStep handle p = (some (.stop r), (lineStep handle p).2) := by
        rw [he]
        simp only [lineTaken, hres, Option.map_some]
      rw [hs]
      refine ⟨?_, fun r' hr' => ?_⟩
      · rw [he]
        exact hk.1
      · cases hr'
        exact hk.2 r hres
  · rw [he]
    exact ⟨hi, fun r hr => (nomatch hr)⟩
  · rw [he]
    exact ⟨hi, fun r hr => (nomatch hr)⟩

end Run

/-! ## The loop as a fold over lines -/

/-- `f` over lines until it decides; then the result, and the lines not looked at. -/
def foldLines {α ρ : Type} (f : α → List UInt8 → α × Option ρ) :
    α → List (List UInt8) → α × Option (ρ × List (List UInt8))
  | a, [] => (a, none)
  | a, l :: ls =>
    match f a (cut l) with
    | (a', none) => foldLines f a' ls
    | (a', some r) => (a', some (r, ls))

def tailExit {ρ : Type} : Tail → Exit ρ
  | .pending _ _ => .lineOpen
  | .stray _ _ => .lineBad

section Fold

variable {σ ρ α : Type} {handle : List UInt8 → Nat → σ → Handled σ ρ}

/-- What the handler does to the states that satisfy `inv`, seen through `abs`, is `f` of the line's
string. -/
def ReadsAs (handle : List UInt8 → Nat → σ → Handled σ ρ) (inv : σ → Prop) (abs : σ → α)
    (f : α → List UInt8 → α × Option ρ) : Prop :=
  ∀ buf text s, inv s → Terminated buf text → inv (handle buf text s).state ∧
    (abs (handle buf text s).state, (handle buf text s).result) = f (abs s) (cstr buf text)

/-- The string of a line that starts where the scanner stood is the line up to its first NUL. -/
theorem endLine_cstr {b : LineBuf} {l r : List UInt8} (hw : b.Wf)
    (hstart : b.startLine = b.checkedIdx) (ha : b.ahead = l ++ cr :: lf :: r) :
    Terminated (b.endLine (b.checkedIdx + l.length)).readBuf b.startLine ∧
      cstr (b.endLine (b.checkedIdx + l.length)).readBuf b.startLine = cut l := by
  have hdrop : b.readBuf.drop b.checkedIdx =
      l ++ cr :: lf :: (r ++ b.readBuf.drop b.readIdx) := by
    have hle := hw.checked_le
    have hlen := hw.read_le
    have htake : b.checkedIdx ≤ (b.readBuf.take b.readIdx).length := by
      rw [List.length_take]
      omega
    conv_lhs => rw [← List.take_append_drop b.readIdx b.readBuf]
    rw [List.drop_append_of_le_length htake]
    show b.ahead ++ _ = _
    rw [ha, List.append_assoc]
    rfl
  have hset : (b.endLine (b.checkedIdx + l.length)).readBuf.drop b.startLine =
      l ++ 0 :: 0 :: (r ++ b.readBuf.drop b.readIdx) := by
    have h1 : b.checkedIdx + l.length - b.checkedIdx = l.length := by omega
    have h2 : b.checkedIdx + l.length + 1 - b.checkedIdx = l.length + 1 := by omega
    simp only [LineBuf.endLine]
    rw [hstart, List.drop_set, if_neg (by omega), List.drop_set, if_neg (by omega), hdrop, h1, h2,
      List.set_append_right _ _ (Nat.le_refl _), Nat.sub_self,
      List.set_append_right _ _ (Nat.le_add_right l.length 1), Nat.add_sub_cancel_left]
    rfl
  refine ⟨?_, ?_⟩
  · rw [Terminated, hset]
    exact List.mem_append_right _ List.mem_cons_self
  · rw [cstr, hset, cut_append_nul]

/-- What a run on the bytes `bs` ends in, as a fold over their lines. -/
def Folded (abs : σ → α) (f : α → List UInt8 → α × Option ρ) (a : α) (bs : List UInt8)
    (out : Exit ρ × Parser σ) : Prop :=
  match foldLines f a (splitLines bs).1 with
  | (a', none) => out.1 = tailExit (splitLines bs).2 ∧ abs out.2.state = a'
  | (a', some (r, ls)) => out.1 = .stop r ∧ abs out.2.state = a' ∧
      out.2.line.ahead = crlf ls ++ (splitLines bs).2.bytes ∧
      out.2.line.startLine = out.2.line.checkedIdx

theorem Folded.undecided {abs : σ → α} {f : α → List UInt8 → α × Option ρ} {a : α}
    {bs : List UInt8} {out : Exit ρ × Parser σ} (h : Folded abs f a bs out)
    (hf : (foldLines f a (splitLines bs).1).2 = none) : out.1 = tailExit (splitLines bs).2 := by
  cases hp : foldLines f a (splitLines bs).1 with
  | mk a' res =>
    rw [hp] at hf
    have hres : res = none := hf
    subst hres
    simp only [Folded, hp] at h
    exact h.1

theorem Folded.decided {abs : σ → α} {f : α → List UInt8 → α × Option ρ} {a a' : α}
    {bs : List UInt8} {out : Exit ρ × Parser σ} (h : Folded abs f a bs out) {r : ρ}
    {ls : List (List UInt8)} (hf : foldLines f a (splitLines bs).1 = (a', some (r, ls))) :
    out.1 = .stop r ∧ abs out.2.state = a' ∧
      out.2.line.ahead = crlf ls ++ (splitLines bs).2.bytes ∧
      out.2.line.startLine = out.2.line.checkedIdx := by
  simp only [Folded, hf] at h
  exact h

/-- A run that starts at a line's start is a fold over the lines ahead. -/
theorem run_fold {inv : σ → Prop} {abs : σ → α} {f : α → List UInt8 → α × Option ρ}
    (hloc : Local handle) (hreads : ReadsAs handle inv abs f) (p : Parser σ) (hw : p.line.Wf)
    (hi : inv p.state) (hstart : p.line.startLine = p.line.checkedIdx) :
    Folded abs f (abs p.state) p.line.ahead (run handle p) := by
  refine run_induction hloc (motive := fun p => inv p.state →
    p.line.startLine = p.line.checkedIdx →
      Folded abs f (abs p.state) p.line.ahead (run handle p)) ?_ p hw hi hstart
  intro p hw ih hi hstart
  rw [run_eq hloc hw]
  rcases lineStep_cases hloc hw with ⟨l, r, ha, hl, he, hw', hr⟩ | ⟨l, held, ha, hl, he⟩ |
    ⟨l, r, ha, hl, hr, he⟩
  · obtain ⟨ht, htext⟩ := endLine_cstr hw hstart ha
    obtain ⟨hinv, hread⟩ := hreads _ _ p.state hi ht
    rw [htext] at hread
    have hsplit : splitLines p.line.ahead = (l :: (splitLines r).1, (splitLines r).2) := by
      rw [ha]
      exact splitLines_line hl r
    have hnew : (lineStep handle p).2.line.startLine = (lineStep handle p).2.line.checkedIdx := by
      rw [he]
      rfl
    have hstate : abs (lineStep handle p).2.state = (f (abs p.state) (cut l)).1 := by
      rw [he, ← hread]
      rfl
    have hres : (lineStep handle p).1 = (f (abs p.state) (cut l)).2.map .stop := by
      rw [he, ← hread]
      rfl
    cases hf : f (abs p.state) (cut l) with
    | mk a res =>
      rw [hf] at hstate hres
      cases hs : lineStep handle p with
      | mk e p' =>
        rw [hs] at hstate hres hr hnew
        cases res with
        | none =>
          have hnone : e = none := hres
          subst hnone
          have hi' : inv p'.state := by
            have hsnd : (lineStep handle p).2 = p' := by rw [hs]
            rw [← hsnd, he]
            exact hinv
          have hfold := ih p' hs hi' hnew
          have hahead : p'.line.ahead = r := hr
          have hstate : abs p'.state = a := hstate
          simp only [Folded, hahead, hstate, hsplit, foldLines, hf] at hfold ⊢
          exact hfold
        | some res =>
          have he : e = some (.stop res) := hres
          subst he
          simp only [Folded, hsplit, foldLines, hf]
          refine ⟨trivial, hstate, ?_, hnew⟩
          exact hr.trans (splitLines_spec r).1
  · have hsplit : splitLines p.line.ahead = ([], .pending l held) := by
      rw [ha]
      exact splitLines_tail (t := .pending l held) hl
    rw [he]
    simp only [Folded, hsplit, foldLines, tailExit, and_self]
  · have hsplit : splitLines p.line.ahead = ([], .stray l r) := by
      rw [ha]
      exact splitLines_tail (t := .stray l r) ⟨hl, hr⟩
    rw [he]
    simp only [Folded, hsplit, foldLines, tailExit, and_self]

end Fold
end Unpvol1.Http
