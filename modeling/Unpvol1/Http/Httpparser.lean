import Unpvol1.Http.Head

/-!
# Http.Httpparser

`8-3httpparser.cpp`: the parser, and the loop of `main` that reads one client. What the functions
print is left out.

* `parseRequestline`, `parseHeaders` — one line in each check state; `handleLine` — the `switch`.
* `parseContent` — the line loop and its result.
* `serve` — `main` after `accept`, for the chunks that `recv` returns.
* `serve_eq` — chunk by chunk or at once makes no difference.
-/

namespace Unpvol1.Httpparser

open Http

def bufferSize : Nat := 4096

inductive HttpCode where
  | noRequest
  | getRequest
  | badRequest
  | forbiddenRequest
  | internalError
  | closedConnection
  deriving DecidableEq, Repr

def parseRequestline (buf : List UInt8) (szTemp : Nat) (checkstate : CheckState) :
    HttpCode × List UInt8 × CheckState :=
  let line := parseRequestLine buf szTemp none
  if line.valid then (.noRequest, line.readBuf, .header)
  else (.badRequest, line.readBuf, checkstate)

/-- A `Host:` line and an unknown header are printed, and that is all. -/
def parseHeaders (buf : List UInt8) (szTemp : Nat) : HttpCode :=
  if buf.getD szTemp 0 = 0 then .getRequest else .noRequest

/-- The `switch` on the check state. -/
def handleLine (buf : List UInt8) (szTemp : Nat) (checkstate : CheckState) :
    Handled CheckState HttpCode :=
  match checkstate with
  | .requestLine =>
    let (retcode, buf, checkstate) := parseRequestline buf szTemp checkstate
    { readBuf := buf, state := checkstate,
      result := if retcode = .badRequest then some .badRequest else none }
  | .header =>
    let retcode := parseHeaders buf szTemp
    { readBuf := buf, state := checkstate,
      result := if retcode = .badRequest then some .badRequest
        else if retcode = .getRequest then some .getRequest else none }
  | .content => { readBuf := buf, state := checkstate, result := some .internalError }

def parseContent (p : Parser CheckState) : HttpCode × Parser CheckState :=
  match run handleLine p with
  | (.stop retcode, p) => (retcode, p)
  | (.lineOpen, p) => (.noRequest, p)
  | (.lineBad, p) => (.badRequest, p)

/-- The buffer of `main` before the first `recv`. -/
def start : Parser CheckState := { line := LineBuf.cleared bufferSize, state := .requestLine }

/-- The `while( 1 )` of `main`: `parse_content` after each chunk, until it decides. -/
def serve (p : Parser CheckState) : List (List UInt8) → HttpCode × Parser CheckState
  | [] => (.noRequest, p)
  | chunk :: chunks =>
    match parseContent (p.receive chunk) with
    | (.noRequest, p) => serve p chunks
    | decided => decided

/-! ## One line -/

section Line

theorem handleLine_local : Local handleLine where
  length := by
    intro buf text s
    cases s with
    | requestLine =>
      simp only [handleLine, parseRequestline]
      split
      · exact parseRequestLine_length buf text none
      · exact parseRequestLine_length buf text none
    | header => rfl
    | content => rfl
  append := by
    intro buf rest text s ht
    cases s with
    | requestLine =>
      simp only [handleLine, parseRequestline, parseRequestLine_append ht]
      split
      · rfl
      · rfl
    | header =>
      have hret : parseHeaders (buf ++ rest) text = parseHeaders buf text := by
        rw [parseHeaders, parseHeaders, getD_append ht.lt]
      simp only [handleLine, hret]
    | content => rfl

/-- The `switch` reads a head, with no header fields. -/
def lineRule : CheckState × Unit → List UInt8 → (CheckState × Unit) × Option HttpCode :=
  headRule (fun _ _ => ()) (fun _ => (.header, .getRequest)) .badRequest .internalError

theorem handleLine_reads :
    ReadsAs handleLine (fun _ => True) (fun s => (s, ())) lineRule := by
  intro buf text s _ _
  refine ⟨trivial, ?_⟩
  cases s with
  | requestLine =>
    have hv := parseRequestLine_valid buf text none
    by_cases h : ValidRequestLine (cstr buf text)
    · have hret : parseRequestline buf text .requestLine =
          (.noRequest, (parseRequestLine buf text none).readBuf, .header) := if_pos (hv.mpr h)
      simp only [handleLine, hret, lineRule, headRule, h, if_true]
      rfl
    · have hret : parseRequestline buf text .requestLine =
          (.badRequest, (parseRequestLine buf text none).readBuf, .requestLine) :=
        if_neg fun h' => h (hv.mp h')
      simp only [handleLine, hret, lineRule, headRule, h, if_true, if_false]
  | header =>
    have hnil := cstr_eq_nil buf text
    by_cases h : buf.getD text 0 = 0
    · have hret : parseHeaders buf text = .getRequest := if_pos h
      simp only [handleLine, hret, lineRule, headRule, hnil.mpr h, if_true]
      rfl
    · have hret : parseHeaders buf text = .noRequest := if_neg h
      have hne : cstr buf text ≠ [] := fun h' => h (hnil.mp h')
      simp only [handleLine, hret, lineRule, headRule, hne, if_false]
      rfl
  | content => rfl

/-- No line is handled in `CHECK_STATE_CONTENT`, and no line's result is `NO_REQUEST`. -/
theorem handleLine_keeps (buf : List UInt8) (text : Nat) (s : CheckState) (hs : s ≠ .content) :
    (handleLine buf text s).state ≠ .content ∧ ∀ r, (handleLine buf text s).result = some r →
      r ≠ .internalError ∧ r ≠ .noRequest := by
  cases s with
  | requestLine =>
    simp only [handleLine, parseRequestline]
    split
    · exact ⟨CheckState.noConfusion, fun r hr => (nomatch hr)⟩
    · refine ⟨CheckState.noConfusion, fun r hr => ?_⟩
      cases hr
      exact ⟨by decide, by decide⟩
  | header =>
    simp only [handleLine, parseHeaders]
    split
    · refine ⟨by decide, fun r hr => ?_⟩
      cases hr
      exact ⟨by decide, by decide⟩
    · exact ⟨by decide, fun r hr => (nomatch hr)⟩
  | content => exact absurd rfl hs

end Line

/-! ## Chunk by chunk -/

section Chunks

variable {p : Parser CheckState} {chunks : List (List UInt8)}

theorem parseContent_cases (hw : p.line.Wf) (hs : p.state ≠ .content) :
    (∃ q, run handleLine p = (.lineOpen, q) ∧ parseContent p = (.noRequest, q)) ∨
      ∃ e code q, run handleLine p = (e, q) ∧ e ≠ .lineOpen ∧ parseContent p = (code, q) ∧
        code ≠ .noRequest ∧ code ≠ .internalError := by
  have hgood := (run_state handleLine_local handleLine_keeps p hw hs).2
  cases hr : run handleLine p with
  | mk e q =>
    rw [hr] at hgood
    cases e with
    | lineOpen =>
      refine .inl ⟨q, rfl, ?_⟩
      simp only [parseContent, hr]
    | lineBad =>
      refine .inr ⟨.lineBad, .badRequest, q, rfl, by decide, ?_, by decide, by decide⟩
      simp only [parseContent, hr]
    | stop code =>
      have h := hgood code rfl
      refine .inr ⟨.stop code, code, q, rfl, fun he => (nomatch he), ?_, h.2, h.1⟩
      simp only [parseContent, hr]

/-- A call after an undecided one, on what it left and a chunk, is the call on everything. -/
theorem parseContent_receive_open (hw : p.line.Wf) (hs : p.state ≠ .content)
    (h : (parseContent p).1 = .noRequest) (c : List UInt8) :
    parseContent ((parseContent p).2.receive c) = parseContent (p.receive c) := by
  rcases parseContent_cases hw hs with ⟨q, hr, hp⟩ | ⟨e, code, q, _, _, hp, hne, _⟩
  · have hopen := run_receive_open handleLine_local c p hw (by rw [hr])
    rw [hr] at hopen
    rw [hp]
    simp only [parseContent, hopen]
  · rw [hp] at h
    exact absurd h hne

/-- A decided call is decided the same with more bytes. -/
theorem parseContent_receive_closed (hw : p.line.Wf) (hs : p.state ≠ .content)
    (h : (parseContent p).1 ≠ .noRequest) (c : List UInt8) :
    (parseContent (p.receive c)).1 = (parseContent p).1 := by
  rcases parseContent_cases hw hs with ⟨q, _, hp⟩ | ⟨e, code, q, hr, hne, _, _⟩
  · rw [hp] at h
    exact absurd rfl h
  · have hclosed := run_receive_closed handleLine_local c p hw (by rw [hr]; exact hne)
    rw [hr] at hclosed
    simp only [parseContent, hr, hclosed]
    cases e with
    | lineOpen => rfl
    | lineBad => rfl
    | stop code => rfl

/-- `main`'s loop, continued from an undecided call, is one call on everything. -/
theorem serve_step (chunks : List (List UInt8)) (p : Parser CheckState) (hw : p.line.Wf)
    (hs : p.state ≠ .content) (h : (parseContent p).1 = .noRequest) :
    (serve (parseContent p).2 chunks).1 = (parseContent (p.receive chunks.flatten)).1 ∧
      ((serve (parseContent p).2 chunks).1 = .noRequest →
        (serve (parseContent p).2 chunks).2 = (parseContent (p.receive chunks.flatten)).2) := by
  induction chunks generalizing p with
  | nil =>
    rw [List.flatten_nil, p.receive_nil]
    exact ⟨h.symm, fun _ => rfl⟩
  | cons c chunks ih =>
    have hflat : p.receive (c :: chunks).flatten = (p.receive c).receive chunks.flatten := by
      rw [List.flatten_cons, Parser.receive_receive hw]
    have hstep := parseContent_receive_open hw hs h c
    have hwc : (p.receive c).line.Wf := LineBuf.receive_wf hw c
    have hsc : (p.receive c).state ≠ .content := hs
    simp only [serve]
    rw [hstep, hflat]
    by_cases hn : (parseContent (p.receive c)).1 = .noRequest
    · have hpair : parseContent (p.receive c) = (.noRequest, (parseContent (p.receive c)).2) := by
        rw [← hn]
      rw [hpair]
      exact ih (p.receive c) hwc hsc hn
    · have hserve : (match parseContent (p.receive c) with
          | (.noRequest, p) => serve p chunks
          | decided => decided) = parseContent (p.receive c) := by
        split
        · rename_i heq
          rw [heq] at hn
          exact absurd rfl hn
        · rfl
      rw [hserve]
      exact ⟨(parseContent_receive_closed hwc hsc hn _).symm, fun h' => absurd h' hn⟩

theorem start_wf : start.line.Wf := LineBuf.cleared_wf bufferSize

theorem parseContent_start : parseContent start = (.noRequest, start) := rfl

/-- However a stream is cut into chunks, `main`'s loop ends like one call on the whole stream, in
the same state as long as nothing is decided; `INTERNAL_ERROR` is never the result. -/
theorem serve_eq (chunks : List (List UInt8)) :
    (serve start chunks).1 = (parseContent (start.receive chunks.flatten)).1 ∧
      ((serve start chunks).1 = .noRequest →
        (serve start chunks).2 = (parseContent (start.receive chunks.flatten)).2) ∧
      (serve start chunks).1 ≠ .internalError := by
  have hs : start.state ≠ .content := CheckState.noConfusion
  have hstep := serve_step chunks start start_wf hs rfl
  rw [parseContent_start] at hstep
  have hwc : (start.receive chunks.flatten).line.Wf := LineBuf.receive_wf start_wf _
  have hsc : (start.receive chunks.flatten).state ≠ .content := hs
  refine ⟨hstep.1, hstep.2, ?_⟩
  rw [hstep.1]
  rcases parseContent_cases hwc hsc with ⟨q, _, hp⟩ | ⟨e, code, q, _, _, hp, _, hne⟩
  · rw [hp]
    exact HttpCode.noConfusion
  · rw [hp]
    exact hne

end Chunks

/-! ## The language -/

section Language

/-- One call on a whole stream. -/
def parseStream (bs : List UInt8) : HttpCode := (parseContent (start.receive bs)).1

theorem start_ahead (bs : List UInt8) : (start.receive bs).line.ahead = bs := by
  have hahead := LineBuf.ahead_receive start_wf bs
  exact hahead

/-- The result is the fold over the stream's lines, or the tail's. -/
theorem parseStream_eq (bs : List UInt8) : parseStream bs =
    match foldLines lineRule (.requestLine, ()) (splitLines bs).1 with
    | (_, some (code, _)) => code
    | (_, none) =>
      match (splitLines bs).2 with
      | .pending _ _ => .noRequest
      | .stray _ _ => .badRequest := by
  have hw : (start.receive bs).line.Wf := LineBuf.receive_wf start_wf bs
  have hfold := run_fold handleLine_local handleLine_reads (start.receive bs) hw trivial rfl
  rw [start_ahead] at hfold
  simp only [parseStream, parseContent]
  cases hr : run handleLine (start.receive bs) with
  | mk e q =>
    rw [hr] at hfold
    cases hf : foldLines lineRule (.requestLine, ()) (splitLines bs).1 with
    | mk a res =>
      cases res with
      | none =>
        have he : e = tailExit (splitLines bs).2 := hfold.undecided (congrArg Prod.snd hf)
        subst he
        cases (splitLines bs).2 with
        | pending l held => rfl
        | stray l rest => rfl
      | some res =>
        have he : e = .stop res.1 := (hfold.decided hf).1
        subst he
        rfl

/-- The parser accepts a stream that starts with a head. It rejects a stream whose first line is
not a request line, or in which a stray CR or LF comes first. Otherwise it waits for more. -/
theorem parseStream_language (bs : List UInt8) :
    (parseStream bs = .getRequest ↔ Accepts bs) ∧
      (parseStream bs = .badRequest ↔ FirstLineInvalid bs ∨ StrayFirst bs) ∧
      (parseStream bs = .noRequest ↔ ¬ Accepts bs ∧ ¬ (FirstLineInvalid bs ∨ StrayFirst bs)) := by
  have heq := parseStream_eq bs
  rcases stream_cases bs with ⟨hd, hs, ms, hls, hhd, hinv⟩ | ⟨l, ms, hls, hl, hacc⟩ |
    ⟨hacc, hinv, hls⟩
  · have hacc : Accepts bs := accepts_iff.mpr ⟨hd, hs, ms, hls, hhd⟩
    have hstray : ¬ StrayFirst bs := fun h => (strayFirst_iff.mp h).2 hacc
    rw [hls, lineRule, fold_head hhd] at heq
    have heq : parseStream bs = .getRequest := heq
    simp [heq, hacc, hinv, hstray]
  · have hinv : FirstLineInvalid bs := firstLineInvalid_iff.mpr ⟨l, ms, hls, hl⟩
    rw [hls, lineRule, fold_invalid hl] at heq
    have heq : parseStream bs = .badRequest := heq
    simp [heq, hacc, hinv]
  · have hnone : (foldLines lineRule (.requestLine, ()) (splitLines bs).1).2 = none :=
      fold_undecided hls
    have hfold : foldLines lineRule (.requestLine, ()) (splitLines bs).1 =
        ((foldLines lineRule (.requestLine, ()) (splitLines bs).1).1, none) := by
      rw [← hnone]
    rw [hfold] at heq
    have hstray : StrayFirst bs ↔ ∃ l rest, (splitLines bs).2 = .stray l rest := by
      rw [strayFirst_iff]
      exact ⟨fun h => h.1, fun h => ⟨h, hacc⟩⟩
    cases ht : (splitLines bs).2 with
    | pending l held =>
      rw [ht] at heq hstray
      have heq : parseStream bs = .noRequest := heq
      have hns : ¬ StrayFirst bs := fun h => by
        obtain ⟨_, _, h⟩ := hstray.mp h
        cases h
      simp [heq, hacc, hinv, hns]
    | stray l rest =>
      rw [ht] at heq hstray
      have heq : parseStream bs = .badRequest := heq
      have hs : StrayFirst bs := hstray.mpr ⟨l, rest, rfl⟩
      simp [heq, hacc, hinv, hs]

end Language
end Unpvol1.Httpparser
