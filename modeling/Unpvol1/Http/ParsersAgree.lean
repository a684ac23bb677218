import Unpvol1.Http.Httpparser
import Unpvol1.Http.HttpConnHead

/-!
# Http.ParsersAgree

The two parsers on one stream without a `Content-Length` header.

* `parseRead_stream` — what `http_conn` makes of a stream: a bad request when the first line is
  invalid, the request when there is a head, and otherwise nothing, also after a stray CR or LF.
* `agree_iff` — so it agrees with `8-3httpparser.cpp` exactly when no stray CR or LF comes first.
-/

namespace Unpvol1.HttpConn

open Http

/-- The lines behind the first one, up to the first empty one. -/
def headerLines (bs : List UInt8) : List (List UInt8) :=
  ((splitLines bs).1.drop 1).takeWhile fun l => cut l ≠ []

def NoContentLength (bs : List UInt8) : Prop :=
  ∀ h ∈ headerLines bs, isField contentLengthText (cut h) = false

instance (bs : List UInt8) : Decidable (NoContentLength bs) :=
  List.decidableBAll (fun h => isField contentLengthText (cut h) = false) (headerLines bs)

theorem headerFields_zero {hs : List (List UInt8)}
    (h : ∀ l ∈ hs, isField contentLengthText (cut l) = false) (n : Int) :
    headerFields lengthField n hs = n := by
  induction hs generalizing n with
  | nil => rfl
  | cons l hs ih =>
    obtain ⟨hl, hhs⟩ := List.forall_mem_cons.mp h
    have hstep : lengthField n (cut l) = n := by
      simp only [lengthField, hl, if_false, Bool.false_eq_true]
    show headerFields lengthField (lengthField n (cut l)) hs = n
    rw [hstep]
    exact ih hhs n

theorem headerLines_head {bs : List UInt8} {hd hs ms : List (List UInt8)}
    (hls : (splitLines bs).1 = hd ++ ms) (hhd : IsHead hd hs) : headerLines bs = hs := by
  obtain ⟨l, e, rfl, _, hhs, he⟩ := hhd
  rw [headerLines, hls]
  simp only [List.cons_append, List.append_assoc, List.nil_append, List.drop_succ_cons,
    List.drop_zero]
  have hall : ∀ h ∈ hs, decide (cut h ≠ []) = true := fun h hh => decide_eq_true (hhs h hh)
  rw [List.takeWhile_append_of_pos hall, List.takeWhile_cons_of_neg (by simp [he]),
    List.append_nil]

/-- What `http_conn` makes of a stream without a `Content-Length` header. -/
theorem parseRead_stream (m : Members) {bs : List UInt8} (hcl : NoContentLength bs) :
    (FirstLineInvalid bs ∧ ¬ Accepts bs ∧
      (parseRead ((init m).receive bs)).1 = .code .badRequest) ∨
    (Accepts bs ∧ ¬ FirstLineInvalid bs ∧ (parseRead ((init m).receive bs)).1 = .doRequest) ∨
    (¬ FirstLineInvalid bs ∧ ¬ Accepts bs ∧
      (parseRead ((init m).receive bs)).1 = .code .noRequest) := by
  have hw : ((init m).receive bs).line.Wf := LineBuf.receive_wf (init_wf m) bs
  obtain ⟨fuel, _, hread⟩ := parseRead_head ((init m).receive bs) hw CheckState.noConfusion
  have hrun := init_run m bs
  rw [hread]
  cases hr : run handleHead ((init m).receive bs) with
  | mk e q =>
    rw [hr] at hrun
    rcases stream_cases bs with ⟨hd, hs, ms, hls, hhd, hinv⟩ | ⟨l, ms, hls, hl, hacc⟩ |
      ⟨hacc, hinv, hls⟩
    · have hzero : headerFields lengthField 0 hs = 0 :=
        headerFields_zero (fun l hl => hcl l (headerLines_head hls hhd ▸ hl)) 0
      have hf : foldLines connRule (.requestLine, 0) (splitLines bs).1 =
          ((.header, 0), some (.doRequest, ms)) := by
        rw [hls, connRule, fold_head hhd, hzero]
        rfl
      have he : e = .stop .doRequest := (hrun.decided hf).1
      subst he
      exact .inr (.inl ⟨accepts_iff.mpr ⟨hd, hs, ms, hls, hhd⟩, hinv, rfl⟩)
    · have hf : foldLines connRule (.requestLine, 0) (splitLines bs).1 =
          ((.requestLine, 0), some (.badRequest, ms)) := by
        rw [hls, connRule, fold_invalid hl]
      have he : e = .stop .badRequest := (hrun.decided hf).1
      subst he
      exact .inl ⟨firstLineInvalid_iff.mpr ⟨l, ms, hls, hl⟩, hacc, rfl⟩
    · refine .inr (.inr ⟨hinv, hacc, ?_⟩)
      have he : e = tailExit (splitLines bs).2 := hrun.undecided (fold_undecided hls)
      subst he
      cases (splitLines bs).2 with
      | pending l held => rfl
      | stray l rest => rfl

/-- `process_read` returns `NO_REQUEST`, returns `BAD_REQUEST` from parsing, or reaches `do_request`
exactly when the other parser returns `NO_REQUEST`, `BAD_REQUEST` or `GET_REQUEST`. -/
def Agree (m : Members) (bs : List UInt8) : Prop :=
  ((parseRead ((init m).receive bs)).1 = .code .noRequest ↔
      Httpparser.parseStream bs = .noRequest) ∧
    ((parseRead ((init m).receive bs)).1 = .code .badRequest ↔
      Httpparser.parseStream bs = .badRequest) ∧
    ((parseRead ((init m).receive bs)).1 = .doRequest ↔ Httpparser.parseStream bs = .getRequest)

/-- The parsers agree exactly on the streams in which no stray CR or LF comes before the request is
decided: `process_read` ends its loop on a line error, and returns `NO_REQUEST`. -/
theorem agree_iff (m : Members) (bs : List UInt8) (hcl : NoContentLength bs) :
    Agree m bs ↔ ¬ (StrayFirst bs ∧ ¬ FirstLineInvalid bs) := by
  obtain ⟨hget, hbad, hno⟩ := Httpparser.parseStream_language bs
  simp only [Agree, hget, hbad, hno]
  rcases parseRead_stream m hcl with ⟨hinv, hacc, hout⟩ | ⟨hacc, hinv, hout⟩ | ⟨hinv, hacc, hout⟩
  · simp [hout, hinv, hacc]
  · have hstray : ¬ StrayFirst bs := fun h => (strayFirst_iff.mp h).2 hacc
    simp [hout, hinv, hacc, hstray]
  · by_cases hstray : StrayFirst bs
    · simp [hout, hinv, hacc, hstray]
    · simp [hout, hinv, hacc, hstray]

/-- `GET / HTTP/1.1` and an empty line. -/
theorem agree_root_request : NoContentLength (rootRequest ++ [cr, lf, cr, lf]) ∧
    ¬ (StrayFirst (rootRequest ++ [cr, lf, cr, lf]) ∧
      ¬ FirstLineInvalid (rootRequest ++ [cr, lf, cr, lf])) := by
  have hcl : NoContentLength (rootRequest ++ [cr, lf, cr, lf]) := by decide
  refine ⟨hcl, (agree_iff Members.blank _ hcl).mp ?_⟩
  have hout : (parseRead ((init Members.blank).receive (rootRequest ++ [cr, lf, cr, lf]))).1 =
      .doRequest := by decide +kernel
  have hstream : Httpparser.parseStream (rootRequest ++ [cr, lf, cr, lf]) = .getRequest := by
    decide +kernel
  rw [Agree, hout, hstream]
  decide

/-- A request line that ends in a line feed: the one parser rejects it, the other waits. -/
theorem disagree_line_feed : ¬ ∀ (m : Members) (bs : List UInt8), bs.length ≤ 2047 →
    NoContentLength bs → Agree m bs := by
  intro h
  have hagree := h Members.blank (rootRequest ++ [lf]) (by decide) (by decide)
  have hout : (parseRead ((init Members.blank).receive (rootRequest ++ [lf]))).1 =
      .code .noRequest := by decide +kernel
  have hstream : Httpparser.parseStream (rootRequest ++ [lf]) = .badRequest := by decide +kernel
  rw [Agree, hout, hstream] at hagree
  exact absurd (hagree.1.mp rfl) (by decide)

end Unpvol1.HttpConn
