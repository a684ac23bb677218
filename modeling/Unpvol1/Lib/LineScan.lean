import Mathlib.Data.List.Basic

/-!
# Lib.LineScan

Byte streams cut into lines at CR LF, where a CR or LF on its own is an error.

* `scan` — the first line of a stream, or the `Tail` where no line ends: bytes still waiting for
  their line end, or a stray CR or LF.
* `scan_eq_line`, `scan_eq_tail` — the shape of the stream in each case. What follows a line or a
  stray byte does not matter (`scan_line_append`, `scan_stray_append`), and clean bytes are passed
  over (`scan_clean_append`).
* `splitLines` — all lines, with the tail behind them; `splitLines_spec`, `splitLines_crlf` — the
  round trip.
* `lineRun` — where a scan for lines stops; `lineRun_append` — it goes on there when more follows.
-/

namespace Unpvol1

def cr : UInt8 := 13

def lf : UInt8 := 10

/-- Bytes that neither end a line nor are an error. -/
def Clean (l : List UInt8) : Prop := ∀ b ∈ l, b ≠ cr ∧ b ≠ lf

instance (l : List UInt8) : Decidable (Clean l) :=
  List.decidableBAll (fun b => b ≠ cr ∧ b ≠ lf) l

@[simp] theorem Clean.nil : Clean [] := by
  intro b hb
  cases hb

@[simp] theorem clean_cons {b : UInt8} {l : List UInt8} :
    Clean (b :: l) ↔ (b ≠ cr ∧ b ≠ lf) ∧ Clean l := by
  simp only [Clean, List.forall_mem_cons]

@[simp] theorem clean_append {l r : List UInt8} : Clean (l ++ r) ↔ Clean l ∧ Clean r := by
  simp only [Clean, List.forall_mem_append]

/-- The stream starts with a LF, or with a CR that no LF follows. -/
def Stray : List UInt8 → Prop
  | b :: c :: _ => b = lf ∨ b = cr ∧ c ≠ lf
  | [b] => b = lf
  | [] => False

instance : (w : List UInt8) → Decidable (Stray w)
  | b :: c :: _ => inferInstanceAs (Decidable (b = lf ∨ b = cr ∧ c ≠ lf))
  | [b] => inferInstanceAs (Decidable (b = lf))
  | [] => inferInstanceAs (Decidable False)

theorem Stray.append {w : List UInt8} (h : Stray w) (c : List UInt8) : Stray (w ++ c) := by
  match w, h with
  | [b], h =>
    have hb : b = lf := h
    cases c with
    | nil => exact hb
    | cons x c => exact .inl hb
  | b :: x :: w, h => exact h

/-- What is left of a stream where no line ends. -/
inductive Tail where
  /-- `l`, and then a CR when `held`: what comes next decides. -/
  | pending (l : List UInt8) (held : Bool)
  /-- `l`, and then a stray CR or LF. -/
  | stray (l rest : List UInt8)
  deriving DecidableEq, Repr

namespace Tail

def heldBytes (held : Bool) : List UInt8 := if held then [cr] else []

def bytes : Tail → List UInt8
  | pending l held => l ++ heldBytes held
  | stray l rest => l ++ rest

/-- What is passed over before the end, the CR or the LF. -/
def clean : Tail → List UInt8
  | pending l _ => l
  | stray l _ => l

def Wf : Tail → Prop
  | pending l _ => Clean l
  | stray l rest => Clean l ∧ Stray rest

def prepend (p : List UInt8) : Tail → Tail
  | pending l held => pending (p ++ l) held
  | stray l rest => stray (p ++ l) rest

end Tail

/-! ## The first line -/

inductive Scan where
  | line (l rest : List UInt8)
  | tail (t : Tail)
  deriving DecidableEq, Repr

def Scan.prepend (p : List UInt8) : Scan → Scan
  | line l rest => line (p ++ l) rest
  | tail t => tail (t.prepend p)

def scan : List UInt8 → Scan
  | [] => .tail (.pending [] false)
  | b :: w =>
    if b = cr then
      match w with
      | [] => .tail (.pending [] true)
      | c :: w' => if c = lf then .line [] w' else .tail (.stray [] (b :: c :: w'))
    else if b = lf then .tail (.stray [] (b :: w))
    else (scan w).prepend [b]

section Scan

variable {l r w c : List UInt8} {t : Tail}

theorem scan_line (hl : Clean l) (r : List UInt8) : scan (l ++ cr :: lf :: r) = .line l r := by
  induction l with
  | nil => rfl
  | cons b l ih =>
    obtain ⟨⟨hcr, hlf⟩, hl⟩ := clean_cons.mp hl
    simp only [List.cons_append, scan, hcr, hlf, if_false]
    rw [ih hl]
    rfl

theorem scan_tail (ht : t.Wf) : scan t.bytes = .tail t := by
  match t with
  | .pending l held =>
    have hl : Clean l := ht
    clear ht
    induction l with
    | nil => cases held <;> rfl
    | cons b l ih =>
      obtain ⟨⟨hcr, hlf⟩, hl⟩ := clean_cons.mp hl
      simp only [Tail.bytes, List.cons_append] at ih ⊢
      simp only [scan, hcr, hlf, if_false]
      rw [ih hl]
      rfl
  | .stray l rest =>
    obtain ⟨hl, hr⟩ := ht
    induction l with
    | nil =>
      match rest, hr with
      | [b], hb =>
        have hb : b = lf := hb
        subst hb
        rfl
      | b :: x :: rest, hb =>
        rcases hb with hb | ⟨hb, hx⟩
        · subst hb
          rfl
        · subst hb
          show scan (cr :: x :: rest) = _
          simp only [scan, if_true, hx, if_false]
    | cons b l ih =>
      obtain ⟨⟨hcr, hlf⟩, hl⟩ := clean_cons.mp hl
      simp only [Tail.bytes, List.cons_append] at ih ⊢
      simp only [scan, hcr, hlf, if_false]
      rw [ih hl]
      rfl

/-- Every stream is a line and its rest, or a tail. -/
theorem scan_cases (w : List UInt8) :
    (∃ l r, w = l ++ cr :: lf :: r ∧ Clean l) ∨ ∃ t : Tail, w = t.bytes ∧ t.Wf := by
  induction w with
  | nil => exact .inr ⟨.pending [] false, rfl, Clean.nil⟩
  | cons b w ih =>
    by_cases hcr : b = cr
    · subst hcr
      cases w with
      | nil => exact .inr ⟨.pending [] true, rfl, Clean.nil⟩
      | cons c w =>
        by_cases hc : c = lf
        · subst hc
          exact .inl ⟨[], w, rfl, Clean.nil⟩
        · exact .inr ⟨.stray [] (cr :: c :: w), rfl, Clean.nil, .inr ⟨rfl, hc⟩⟩
    · by_cases hlf : b = lf
      · subst hlf
        refine .inr ⟨.stray [] (lf :: w), rfl, Clean.nil, ?_⟩
        cases w with
        | nil => rfl
        | cons c w => exact .inl rfl
      · rcases ih with ⟨l, r, rfl, hl⟩ | ⟨t, rfl, ht⟩
        · exact .inl ⟨b :: l, r, rfl, clean_cons.mpr ⟨⟨hcr, hlf⟩, hl⟩⟩
        · cases t with
          | pending l held =>
            exact .inr ⟨.pending (b :: l) held, rfl, clean_cons.mpr ⟨⟨hcr, hlf⟩, ht⟩⟩
          | stray l rest =>
            exact .inr ⟨.stray (b :: l) rest, rfl, clean_cons.mpr ⟨⟨hcr, hlf⟩, ht.1⟩, ht.2⟩

theorem scan_eq_line : scan w = .line l r ↔ w = l ++ cr :: lf :: r ∧ Clean l := by
  constructor
  · intro h
    rcases scan_cases w with ⟨l', r', rfl, hl⟩ | ⟨t, rfl, ht⟩
    · rw [scan_line hl] at h
      cases h
      exact ⟨rfl, hl⟩
    · rw [scan_tail ht] at h
      cases h
  · rintro ⟨rfl, hl⟩
    exact scan_line hl r

theorem scan_eq_tail : scan w = .tail t ↔ w = t.bytes ∧ t.Wf := by
  constructor
  · intro h
    rcases scan_cases w with ⟨l', r', rfl, hl⟩ | ⟨t', rfl, ht⟩
    · rw [scan_line hl] at h
      cases h
    · rw [scan_tail ht] at h
      cases h
      exact ⟨rfl, ht⟩
  · rintro ⟨rfl, ht⟩
    exact scan_tail ht

/-- A line stays what it is, whatever follows. -/
theorem scan_line_append (h : scan w = .line l r) (c : List UInt8) :
    scan (w ++ c) = .line l (r ++ c) := by
  obtain ⟨rfl, hl⟩ := scan_eq_line.mp h
  rw [List.append_assoc, List.cons_append, List.cons_append]
  exact scan_line hl _

/-- A stray byte stays one, whatever follows. -/
theorem scan_stray_append (h : scan w = .tail (.stray l r)) (c : List UInt8) :
    scan (w ++ c) = .tail (.stray l (r ++ c)) := by
  obtain ⟨rfl, hl, hr⟩ := scan_eq_tail.mp h
  have hb : (Tail.stray l r).bytes ++ c = (Tail.stray l (r ++ c)).bytes := by
    simp only [Tail.bytes, List.append_assoc]
  rw [hb]
  exact scan_tail ⟨hl, hr.append c⟩

theorem Scan.prepend_cons (b : UInt8) (p : List UInt8) (s : Scan) :
    s.prepend (b :: p) = (s.prepend p).prepend [b] := by
  match s with
  | .line _ _ => rfl
  | .tail (.pending _ _) => rfl
  | .tail (.stray _ _) => rfl

theorem Scan.prepend_nil (s : Scan) : s.prepend [] = s := by
  match s with
  | .line _ _ => rfl
  | .tail (.pending _ _) => rfl
  | .tail (.stray _ _) => rfl

/-- A scan passes over clean bytes. -/
theorem scan_clean_append (hl : Clean l) (w : List UInt8) :
    scan (l ++ w) = (scan w).prepend l := by
  induction l with
  | nil => rw [List.nil_append, Scan.prepend_nil]
  | cons b l ih =>
    obtain ⟨⟨hcr, hlf⟩, hl⟩ := clean_cons.mp hl
    simp only [List.cons_append, scan, hcr, hlf, if_false]
    rw [ih hl, ← Scan.prepend_cons]

end Scan

/-! ## All lines -/

def pushFirst (b : UInt8) : List (List UInt8) × Tail → List (List UInt8) × Tail
  | ([], t) => ([], t.prepend [b])
  | (l :: ls, t) => ((b :: l) :: ls, t)

/-- The lines of a stream up to its end or its first stray byte, and what is left there. -/
def splitLines : List UInt8 → List (List UInt8) × Tail
  | [] => ([], .pending [] false)
  | b :: w =>
    if b = cr then
      match w with
      | [] => ([], .pending [] true)
      | c :: w' =>
        if c = lf then ([] :: (splitLines w').1, (splitLines w').2)
        else ([], .stray [] (b :: c :: w'))
    else if b = lf then ([], .stray [] (b :: w))
    else pushFirst b (splitLines w)

/-- Lines with their line ends. -/
def crlf (ls : List (List UInt8)) : List UInt8 := ls.flatMap (· ++ [cr, lf])

section SplitLines

variable {l r w : List UInt8} {ls : List (List UInt8)} {t : Tail}

theorem crlf_cons (l : List UInt8) (ls : List (List UInt8)) :
    crlf (l :: ls) = l ++ cr :: lf :: crlf ls := by
  simp only [crlf, List.flatMap_cons, List.append_assoc, List.cons_append, List.nil_append]

theorem crlf_append (ls ms : List (List UInt8)) : crlf (ls ++ ms) = crlf ls ++ crlf ms :=
  List.flatMap_append

theorem splitLines_pushFirst {b : UInt8} (hcr : b ≠ cr) (hlf : b ≠ lf) (w : List UInt8) :
    splitLines (b :: w) = pushFirst b (splitLines w) := by
  cases w with
  | nil => simp only [splitLines, hcr, hlf, if_false]
  | cons c w =>
    rw [splitLines.eq_def]
    simp only [hcr, hlf, if_false]

theorem splitLines_line (hl : Clean l) (r : List UInt8) :
    splitLines (l ++ cr :: lf :: r) = (l :: (splitLines r).1, (splitLines r).2) := by
  induction l with
  | nil => rfl
  | cons b l ih =>
    obtain ⟨⟨hcr, hlf⟩, hl⟩ := clean_cons.mp hl
    rw [List.cons_append, splitLines_pushFirst hcr hlf, ih hl]
    rfl

theorem splitLines_tail (ht : t.Wf) : splitLines t.bytes = ([], t) := by
  match t with
  | .pending l held =>
    have hl : Clean l := ht
    clear ht
    induction l with
    | nil => cases held <;> rfl
    | cons b l ih =>
      obtain ⟨⟨hcr, hlf⟩, hl⟩ := clean_cons.mp hl
      have hb : (Tail.pending (b :: l) held).bytes = b :: (Tail.pending l held).bytes := rfl
      rw [hb, splitLines_pushFirst hcr hlf, ih hl]
      rfl
  | .stray l rest =>
    obtain ⟨hl, hr⟩ := ht
    induction l with
    | nil =>
      match rest, hr with
      | [b], hb =>
        have hb : b = lf := hb
        subst hb
        rfl
      | b :: x :: rest, hb =>
        rcases hb with hb | ⟨hb, hx⟩
        · subst hb
          rfl
        · subst hb
          show splitLines (cr :: x :: rest) = _
          simp only [splitLines, if_true, hx, if_false]
    | cons b l ih =>
      obtain ⟨⟨hcr, hlf⟩, hl⟩ := clean_cons.mp hl
      have hb : (Tail.stray (b :: l) rest).bytes = b :: (Tail.stray l rest).bytes := rfl
      rw [hb, splitLines_pushFirst hcr hlf, ih hl]
      rfl

theorem splitLines_crlf (hls : ∀ l ∈ ls, Clean l) (w : List UInt8) :
    splitLines (crlf ls ++ w) = (ls ++ (splitLines w).1, (splitLines w).2) := by
  induction ls with
  | nil => rfl
  | cons l ls ih =>
    rw [crlf_cons, List.append_assoc, List.cons_append, List.cons_append,
      splitLines_line (hls l List.mem_cons_self), ih fun m hm => hls m (List.mem_cons_of_mem l hm)]
    rfl

/-- Every stream is its lines and its tail. -/
theorem splitLines_spec (w : List UInt8) :
    w = crlf (splitLines w).1 ++ (splitLines w).2.bytes ∧
      (∀ l ∈ (splitLines w).1, Clean l) ∧ (splitLines w).2.Wf := by
  induction hn : w.length using Nat.strongRecOn generalizing w with
  | _ n ih =>
    rcases scan_cases w with ⟨l, r, rfl, hl⟩ | ⟨t, rfl, ht⟩
    · have hlt : r.length < n := by
        rw [← hn]
        simp only [List.length_append, List.length_cons]
        omega
      obtain ⟨hr, hclean, hwf⟩ := ih r.length hlt r rfl
      rw [splitLines_line hl]
      refine ⟨?_, List.forall_mem_cons.mpr ⟨hl, hclean⟩, hwf⟩
      rw [crlf_cons, List.append_assoc, List.cons_append, List.cons_append, ← hr]
    · rw [splitLines_tail ht]
      exact ⟨rfl, fun l hl => (nomatch hl), ht⟩

end SplitLines

/-! ## How far the lines go -/

/-- The bytes of the complete lines. -/
def linesLength (w : List UInt8) : Nat := (crlf (splitLines w).1).length

/-- The bytes before the first that is neither clean nor part of a line end. -/
def lineRun (w : List UInt8) : Nat := linesLength w + (splitLines w).2.clean.length

section LineRun

variable {l r w : List UInt8} {t : Tail}

theorem linesLength_line (hl : Clean l) (r : List UInt8) :
    linesLength (l ++ cr :: lf :: r) = l.length + 2 + linesLength r := by
  rw [linesLength, splitLines_line hl, crlf_cons, List.length_append, List.length_cons,
    List.length_cons, linesLength]
  omega

theorem lineRun_line (hl : Clean l) (r : List UInt8) :
    lineRun (l ++ cr :: lf :: r) = l.length + 2 + lineRun r := by
  rw [lineRun, linesLength_line hl, splitLines_line hl, lineRun]
  exact Nat.add_assoc _ _ _

theorem linesLength_tail (ht : t.Wf) : linesLength t.bytes = 0 := by
  rw [linesLength, splitLines_tail ht]
  rfl

theorem lineRun_tail (ht : t.Wf) : lineRun t.bytes = t.clean.length := by
  rw [lineRun, linesLength_tail ht, splitLines_tail ht, Nat.zero_add]

theorem linesLength_crlf {ls : List (List UInt8)} (hls : ∀ l ∈ ls, Clean l) (w : List UInt8) :
    linesLength (crlf ls ++ w) = (crlf ls).length + linesLength w := by
  rw [linesLength, splitLines_crlf hls, crlf_append, List.length_append, linesLength]

theorem lineRun_crlf {ls : List (List UInt8)} (hls : ∀ l ∈ ls, Clean l) (w : List UInt8) :
    lineRun (crlf ls ++ w) = (crlf ls).length + lineRun w := by
  rw [lineRun, linesLength_crlf hls, splitLines_crlf hls, lineRun, Nat.add_assoc]

/-- Clean bytes in front belong to the first line, if there is one, or to the tail. -/
theorem clean_append_cases (hl : Clean l) (w : List UInt8) :
    (linesLength w = 0 ∧ linesLength (l ++ w) = 0 ∨
      0 < linesLength w ∧ linesLength (l ++ w) = l.length + linesLength w) ∧
    lineRun (l ++ w) = l.length + lineRun w := by
  rcases scan_cases w with ⟨m, r, rfl, hm⟩ | ⟨t, rfl, ht⟩
  · have hlm : Clean (l ++ m) := clean_append.mpr ⟨hl, hm⟩
    rw [← List.append_assoc, linesLength_line hlm, lineRun_line hlm, linesLength_line hm,
      lineRun_line hm, List.length_append]
    omega
  · have hb : l ++ t.bytes = (t.prepend l).bytes ∧ (t.prepend l).Wf ∧
        (t.prepend l).clean = l ++ t.clean := by
      cases t with
      | pending m held =>
        exact ⟨(List.append_assoc l m _).symm, clean_append.mpr ⟨hl, ht⟩, rfl⟩
      | stray m rest =>
        exact ⟨(List.append_assoc l m _).symm, ⟨clean_append.mpr ⟨hl, ht.1⟩, ht.2⟩, rfl⟩
    rw [hb.1, linesLength_tail hb.2.1, lineRun_tail hb.2.1, linesLength_tail ht, lineRun_tail ht,
      hb.2.2, List.length_append]
    omega

/-- Where a scan of `x` stops, it goes on when `y` follows. -/
theorem lineRun_append (x y : List UInt8) :
    lineRun (x ++ y) = lineRun x + lineRun ((x ++ y).drop (lineRun x)) ∧
      max (lineRun x) (linesLength (x ++ y)) =
        lineRun x + linesLength ((x ++ y).drop (lineRun x)) ∧
      linesLength x ≤ linesLength (x ++ y) := by
  obtain ⟨hx, hls, ht⟩ := splitLines_spec x
  generalize hsp : splitLines x = sp at hx hls ht
  obtain ⟨ls, t⟩ := sp
  simp only at hx hls ht
  -- what is behind the clean bytes of the tail
  obtain ⟨b, hb, hclean⟩ : ∃ b, t.bytes = t.clean ++ b ∧ Clean t.clean := by
    cases t with
    | pending l held => exact ⟨Tail.heldBytes held, rfl, ht⟩
    | stray l rest => exact ⟨rest, rfl, ht.1⟩
  have hrun : lineRun x = (crlf ls ++ t.clean).length := by
    rw [hx, lineRun_crlf hls, lineRun_tail ht, List.length_append]
  have hcat : x ++ y = crlf ls ++ (t.clean ++ (b ++ y)) := by
    rw [hx, hb]
    simp only [List.append_assoc]
  have hdrop : (x ++ y).drop (lineRun x) = b ++ y := by
    rw [hrun, hcat, ← List.append_assoc, List.drop_left]
  have hlines : linesLength x = (crlf ls).length := by
    rw [linesLength, hsp]
  obtain ⟨h1, h2⟩ := clean_append_cases hclean (b ++ y)
  rw [hdrop, hcat, lineRun_crlf hls, linesLength_crlf hls, hrun, h2, List.length_append, hlines]
  omega

theorem lineRun_le (w : List UInt8) : lineRun w ≤ w.length := by
  obtain ⟨hw, _, ht⟩ := splitLines_spec w
  have hlen := congrArg List.length hw
  have htail : (splitLines w).2.clean.length ≤ (splitLines w).2.bytes.length := by
    cases (splitLines w).2 with
    | pending l held =>
      show l.length ≤ (l ++ Tail.heldBytes held).length
      rw [List.length_append]
      omega
    | stray l rest =>
      show l.length ≤ (l ++ rest).length
      rw [List.length_append]
      omega
  rw [List.length_append] at hlen
  rw [lineRun, linesLength]
  omega

theorem linesLength_le (w : List UInt8) : linesLength w ≤ w.length :=
  Nat.le_trans (Nat.le_add_right _ _) (lineRun_le w)

end LineRun
end Unpvol1
