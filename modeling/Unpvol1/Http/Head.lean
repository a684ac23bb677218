import Unpvol1.Http.LineLoop
import Unpvol1.Http.RequestLine

/-!
# Http.Head

The head of a request: a request line, header lines, and the first empty line. Both parsers read it
with the same two check states, and differ in what they do with a header and at the end.

* `headRule` — reading one line's string, for a parser that folds its headers with `upd` and
  decides at the empty line with `dec`.
* `IsHead` — lines that are a head; `head_cases` — how far a list of lines gets.
* `Accepts`, `FirstLineInvalid`, `StrayFirst` — the same of byte streams.
-/

namespace Unpvol1.Http

inductive CheckState where
  | requestLine
  | header
  | content
  deriving DecidableEq, Repr

instance (u : List UInt8) : Decidable (ValidUrl u) :=
  inferInstanceAs (Decidable (_ ∨ (_ ∧ _)))

def isValidRequestLine (t : List UInt8) : Bool :=
  (requestFields t).any fun f =>
    eqIgnoreCase f.1 getText && eqIgnoreCase f.2.2 versionText && decide (ValidUrl f.2.1)

theorem isValidRequestLine_iff {t : List UInt8} :
    isValidRequestLine t = true ↔ ValidRequestLine t := by
  rw [validRequestLine_iff, isValidRequestLine, Option.any_eq_true]
  constructor
  · rintro ⟨⟨m, u, v⟩, hf, h⟩
    rw [Bool.and_eq_true, Bool.and_eq_true, decide_eq_true_eq] at h
    exact ⟨m, u, v, hf, h.1.1, h.1.2, h.2⟩
  · rintro ⟨m, u, v, hf, hm, hv, hu⟩
    refine ⟨(m, u, v), hf, ?_⟩
    rw [Bool.and_eq_true, Bool.and_eq_true, decide_eq_true_eq]
    exact ⟨⟨hm, hv⟩, hu⟩

instance (t : List UInt8) : Decidable (ValidRequestLine t) :=
  decidable_of_iff _ isValidRequestLine_iff

/-! ## Reading lines -/

section Rule

variable {β ρ : Type}

/-- One line's string: what it does to the check state and the header fields `β`, and whether it
decides. -/
def headRule (upd : β → List UInt8 → β) (dec : β → CheckState × ρ) (bad other : ρ) :
    CheckState × β → List UInt8 → (CheckState × β) × Option ρ
  | (.requestLine, b), t =>
    if ValidRequestLine t then ((.header, b), none) else ((.requestLine, b), some bad)
  | (.header, b), t =>
    if t = [] then (((dec b).1, b), some (dec b).2) else ((.header, upd b t), none)
  | (.content, b), _ => ((.content, b), some other)

/-- The header fields after the header lines `hs`. -/
def headerFields (upd : β → List UInt8 → β) (b : β) (hs : List (List UInt8)) : β :=
  hs.foldl (fun b h => upd b (cut h)) b

/-- A valid request line, header lines, and the first empty line. -/
def IsHead (ls hs : List (List UInt8)) : Prop :=
  ∃ l e, ls = l :: hs ++ [e] ∧ ValidRequestLine (cut l) ∧ (∀ h ∈ hs, cut h ≠ []) ∧ cut e = []

/-- Header lines end at an empty one, or go on. -/
theorem header_cases (ls : List (List UInt8)) :
    (∃ hs e ms, ls = hs ++ e :: ms ∧ (∀ h ∈ hs, cut h ≠ []) ∧ cut e = []) ∨
      ∀ h ∈ ls, cut h ≠ [] := by
  induction ls with
  | nil => exact .inr fun h hh => (nomatch hh)
  | cons l ls ih =>
    by_cases hl : cut l = []
    · exact .inl ⟨[], l, ls, rfl, fun h hh => (nomatch hh), hl⟩
    · rcases ih with ⟨hs, e, ms, rfl, hhs, he⟩ | h
      · exact .inl ⟨l :: hs, e, ms, rfl, List.forall_mem_cons.mpr ⟨hl, hhs⟩, he⟩
      · exact .inr (List.forall_mem_cons.mpr ⟨hl, h⟩)

/-- How far a list of lines gets: nowhere, to an invalid request line, through a head, or to a head
that is not complete. -/
theorem head_cases (ls : List (List UInt8)) :
    ls = [] ∨ (∃ l ms, ls = l :: ms ∧ ¬ ValidRequestLine (cut l)) ∨
      (∃ hd hs ms, ls = hd ++ ms ∧ IsHead hd hs) ∨
      ∃ l hs, ls = l :: hs ∧ ValidRequestLine (cut l) ∧ ∀ h ∈ hs, cut h ≠ [] := by
  cases ls with
  | nil => exact .inl rfl
  | cons l ls =>
    by_cases hl : ValidRequestLine (cut l)
    · rcases header_cases ls with ⟨hs, e, ms, rfl, hhs, he⟩ | h
      · refine .inr (.inr (.inl ⟨l :: hs ++ [e], hs, ms, ?_, l, e, rfl, hl, hhs, he⟩))
        simp only [List.cons_append, List.append_assoc, List.nil_append]
      · exact .inr (.inr (.inr ⟨l, ls, rfl, hl, h⟩))
    · exact .inr (.inl ⟨l, ls, rfl, hl⟩)

variable {upd : β → List UInt8 → β} {dec : β → CheckState × ρ} {bad other : ρ} {b : β}
  {hd hs ms : List (List UInt8)} {l : List UInt8}

theorem fold_headers (hhs : ∀ h ∈ hs, cut h ≠ []) (b : β) :
    foldLines (headRule upd dec bad other) (.header, b) (hs ++ ms) =
      foldLines (headRule upd dec bad other) (.header, headerFields upd b hs) ms := by
  induction hs generalizing b with
  | nil => rfl
  | cons h hs ih =>
    obtain ⟨hh, hhs⟩ := List.forall_mem_cons.mp hhs
    simp only [List.cons_append, foldLines, headRule, hh, if_false]
    exact ih hhs _

theorem fold_invalid (hl : ¬ ValidRequestLine (cut l)) :
    foldLines (headRule upd dec bad other) (.requestLine, b) (l :: ms) =
      ((.requestLine, b), some (bad, ms)) := by
  simp only [foldLines, headRule, hl, if_false]

theorem fold_valid (hl : ValidRequestLine (cut l)) :
    foldLines (headRule upd dec bad other) (.requestLine, b) (l :: ms) =
      foldLines (headRule upd dec bad other) (.header, b) ms := by
  simp only [foldLines, headRule, hl, if_true]

/-- A head is decided at its end. -/
theorem fold_head (h : IsHead hd hs) :
    foldLines (headRule upd dec bad other) (.requestLine, b) (hd ++ ms) =
      (((dec (headerFields upd b hs)).1, headerFields upd b hs),
        some ((dec (headerFields upd b hs)).2, ms)) := by
  obtain ⟨l, e, rfl, hl, hhs, he⟩ := h
  rw [List.cons_append, List.cons_append, List.append_assoc, fold_valid hl, fold_headers hhs]
  simp only [List.cons_append, List.nil_append, foldLines, headRule, he, if_true]

/-- An incomplete head is not decided. -/
theorem fold_open (hl : ValidRequestLine (cut l)) (hhs : ∀ h ∈ hs, cut h ≠ []) :
    foldLines (headRule upd dec bad other) (.requestLine, b) (l :: hs) =
      ((.header, headerFields upd b hs), none) := by
  rw [fold_valid hl]
  have h := @fold_headers β ρ upd dec bad other hs [] hhs b
  rw [List.append_nil] at h
  exact h

/-- Neither are no lines at all. -/
theorem fold_undecided {ls : List (List UInt8)}
    (h : ls = [] ∨ ∃ l hs, ls = l :: hs ∧ ValidRequestLine (cut l) ∧ ∀ h ∈ hs, cut h ≠ []) :
    (foldLines (headRule upd dec bad other) (.requestLine, b) ls).2 = none := by
  rcases h with rfl | ⟨l, hs, rfl, hl, hhs⟩
  · rfl
  · rw [fold_open hl hhs]

end Rule

/-! ## Streams -/

/-- The stream starts with a head. -/
def Accepts (bs : List UInt8) : Prop :=
  ∃ hd hs rest, bs = crlf hd ++ rest ∧ (∀ l ∈ hd, Clean l) ∧ IsHead hd hs

def FirstLineInvalid (bs : List UInt8) : Prop :=
  ∃ l rest, bs = l ++ cr :: lf :: rest ∧ Clean l ∧ ¬ ValidRequestLine (cut l)

/-- A stray CR or LF comes before the end of a head. -/
def StrayFirst (bs : List UInt8) : Prop :=
  ∃ ls l rest, bs = crlf ls ++ (l ++ rest) ∧ (∀ m ∈ ls, Clean m) ∧ Clean l ∧ Stray rest ∧
    ¬ Accepts (crlf ls)

section Streams

variable {bs : List UInt8}

theorem accepts_iff : Accepts bs ↔
    ∃ hd hs ms, (splitLines bs).1 = hd ++ ms ∧ IsHead hd hs := by
  constructor
  · rintro ⟨hd, hs, rest, rfl, hclean, hhd⟩
    exact ⟨hd, hs, (splitLines rest).1, by rw [splitLines_crlf hclean], hhd⟩
  · rintro ⟨hd, hs, ms, hls, hhd⟩
    obtain ⟨hbs, hclean, _⟩ := splitLines_spec bs
    rw [hls] at hbs hclean
    rw [crlf_append, List.append_assoc] at hbs
    exact ⟨hd, hs, _, hbs, (List.forall_mem_append.mp hclean).1, hhd⟩

theorem firstLineInvalid_iff : FirstLineInvalid bs ↔
    ∃ l ms, (splitLines bs).1 = l :: ms ∧ ¬ ValidRequestLine (cut l) := by
  constructor
  · rintro ⟨l, rest, rfl, hclean, hl⟩
    exact ⟨l, (splitLines rest).1, by rw [splitLines_line hclean], hl⟩
  · rintro ⟨l, ms, hls, hl⟩
    obtain ⟨hbs, hclean, _⟩ := splitLines_spec bs
    rw [hls] at hbs hclean
    rw [crlf_cons, List.append_assoc, List.cons_append, List.cons_append] at hbs
    exact ⟨l, _, hbs, hclean l List.mem_cons_self, hl⟩

theorem splitLines_crlf_end {ls : List (List UInt8)} (hls : ∀ l ∈ ls, Clean l) :
    (splitLines (crlf ls)).1 = ls := by
  have h := splitLines_crlf hls []
  rw [List.append_nil] at h
  rw [h]
  exact List.append_nil ls

theorem strayFirst_iff : StrayFirst bs ↔
    (∃ l rest, (splitLines bs).2 = .stray l rest) ∧ ¬ Accepts bs := by
  constructor
  · rintro ⟨ls, l, rest, rfl, hls, hl, hrest, hacc⟩
    have htail := splitLines_tail (t := .stray l rest) ⟨hl, hrest⟩
    have hsplit := splitLines_crlf hls (Tail.stray l rest).bytes
    rw [htail, List.append_nil] at hsplit
    refine ⟨⟨l, rest, congrArg Prod.snd hsplit⟩, fun h => hacc ?_⟩
    rw [accepts_iff, splitLines_crlf_end hls]
    obtain ⟨hd, hs, ms, heq, hhd⟩ := accepts_iff.mp h
    exact ⟨hd, hs, ms, (congrArg Prod.fst hsplit).symm.trans heq, hhd⟩
  · rintro ⟨⟨l, rest, htail⟩, hacc⟩
    obtain ⟨hbs, hclean, hwf⟩ := splitLines_spec bs
    rw [htail] at hbs hwf
    refine ⟨(splitLines bs).1, l, rest, hbs, hclean, hwf.1, hwf.2, fun h => hacc ?_⟩
    rw [accepts_iff, splitLines_crlf_end hclean] at h
    exact accepts_iff.mpr h

/-- A stream starts with a head, or with an invalid first line, or its lines decide nothing. -/
theorem stream_cases (bs : List UInt8) :
    (∃ hd hs ms, (splitLines bs).1 = hd ++ ms ∧ IsHead hd hs ∧ ¬ FirstLineInvalid bs) ∨
    (∃ l ms, (splitLines bs).1 = l :: ms ∧ ¬ ValidRequestLine (cut l) ∧ ¬ Accepts bs) ∨
    (¬ Accepts bs ∧ ¬ FirstLineInvalid bs ∧ ((splitLines bs).1 = [] ∨
      ∃ l hs, (splitLines bs).1 = l :: hs ∧ ValidRequestLine (cut l) ∧ ∀ h ∈ hs, cut h ≠ [])) := by
  rw [accepts_iff, firstLineInvalid_iff]
  rcases head_cases (splitLines bs).1 with h | ⟨l, ms, h, hl⟩ | ⟨hd, hs, ms, h, hhd⟩ |
    ⟨l, hs, h, hl, hhs⟩
  · refine .inr (.inr ⟨?_, ?_, .inl h⟩)
    · rintro ⟨hd, hs, ms, heq, m, e, rfl, _⟩
      rw [h] at heq
      cases heq
    · rintro ⟨l, ms, heq, _⟩
      rw [h] at heq
      cases heq
  · refine .inr (.inl ⟨l, ms, h, hl, ?_⟩)
    rintro ⟨hd, hs, ns, heq, m, e, rfl, hm, _⟩
    rw [h] at heq
    cases heq
    exact hl hm
  · refine .inl ⟨hd, hs, ms, h, hhd, ?_⟩
    obtain ⟨m, e, rfl, hm, _⟩ := hhd
    rintro ⟨l, ns, heq, hl⟩
    rw [h] at heq
    cases heq
    exact hl hm
  · refine .inr (.inr ⟨?_, ?_, .inr ⟨l, hs, h, hl, hhs⟩⟩)
    · rintro ⟨hd, hs', ms, heq, m, e, rfl, _, _, he⟩
      rw [h] at heq
      injection heq with _ heq
      exact hhs e (heq ▸ List.mem_append_left ms (List.mem_append_right hs' List.mem_cons_self)) he
    · rintro ⟨m, ms, heq, hm⟩
      rw [h] at heq
      cases heq
      exact hm hl

end Streams
end Unpvol1.Http
