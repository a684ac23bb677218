import Unpvol1.Lib.CString

/-!
# Http.RequestLine

`parse_requestline` of `8-3httpparser.cpp` and `parse_request_line` of `15-5http_conn.cpp`: the same
steps, once on local pointers and once on `m_url` and `m_version`.

* `parseRequestLine` — the steps. It cuts the line in place at the first blank and at the first
  blank after the URL.
* `ValidRequestLine` — `GET`, blanks, a URL, blanks, `HTTP/1.1`.
* `parseRequestLine_valid` — the steps accept exactly the valid request lines.
* `parseRequestLine_urlPath` — on success they leave the URL from its first slash.
* `parseRequestLine_append`, `parseRequestLine_length` — they stay within the line.
-/

namespace Unpvol1.Http

/-- `" \t"` -/
def blanks : List UInt8 := [32, 9]

/-- `"GET"` -/
def getText : List UInt8 := [71, 69, 84]

/-- `"HTTP/1.1"` -/
def versionText : List UInt8 := [72, 84, 84, 80, 47, 49, 46, 49]

/-- `"http://"` -/
def schemeText : List UInt8 := [104, 116, 116, 112, 58, 47, 47]

/-- `'/'` -/
def slash : UInt8 := 47

/-- `"GET / HTTP/1.1"` -/
def rootRequest : List UInt8 := [71, 69, 84, 32, 47, 32, 72, 84, 84, 80, 47, 49, 46, 49]

/-- The buffer and the pointers `szURL` and `szVersion` when the function returns, whether the
method compared equal to `GET`, and whether the function returns `NO_REQUEST`. A pointer is an
index into the buffer, or `none` for a null pointer. -/
structure RequestLine where
  readBuf : List UInt8
  url : Option Nat
  version : Option Nat
  isGet : Bool
  valid : Bool
  deriving DecidableEq, Repr

def parseRequestLine (buf : List UInt8) (text : Nat) (version : Option Nat) : RequestLine :=
  match strpbrk buf text blanks with
  | none => { readBuf := buf, url := none, version := version, isGet := false, valid := false }
  | some blank =>
    let buf := buf.set blank 0
    let url := blank + 1
    if strcaseeq buf text getText then
      let url := url + strspn buf url blanks
      match strpbrk buf url blanks with
      | none => { readBuf := buf, url := some url, version := none, isGet := true, valid := false }
      | some blank =>
        let buf := buf.set blank 0
        let version := blank + 1 + strspn buf (blank + 1) blanks
        if strcaseeq buf version versionText then
          let url := if strncaseeq buf url schemeText then
            strchr buf (url + schemeText.length) slash else some url
          { readBuf := buf, url := url, version := some version, isGet := true,
            valid := url.any fun u => buf.getD u 0 = slash }
        else
          { readBuf := buf, url := some url, version := some version, isGet := true,
            valid := false }
    else { readBuf := buf, url := some url, version := version, isGet := false, valid := false }

/-! ## The language -/

/-- A path, or `http://` and anything with a path in it. -/
def ValidUrl (u : List UInt8) : Prop :=
  u.head? = some slash ∨ (eqIgnoreCase (u.take schemeText.length) schemeText ∧
    slash ∈ u.drop schemeText.length)

def Blank (l : List UInt8) : Prop := l ≠ [] ∧ ∀ b ∈ l, b ∈ blanks

/-- `GET`, blanks, a URL, blanks, `HTTP/1.1`. -/
def ValidRequestLine (t : List UInt8) : Prop :=
  ∃ m b₁ u b₂ v, t = m ++ b₁ ++ u ++ b₂ ++ v ∧ eqIgnoreCase m getText ∧ Blank b₁ ∧
    (∀ b ∈ u, b ∉ blanks) ∧ ValidUrl u ∧ Blank b₂ ∧ eqIgnoreCase v versionText

/-- `t` is a request line for the URL `u`. -/
def RequestFor (t u : List UInt8) : Prop :=
  ∃ m b₁ b₂ v, t = m ++ b₁ ++ u ++ b₂ ++ v ∧ eqIgnoreCase m getText ∧ Blank b₁ ∧
    (∀ b ∈ u, b ∉ blanks) ∧ ValidUrl u ∧ Blank b₂ ∧ eqIgnoreCase v versionText

/-- The URL from its first slash, behind the scheme if there is one. -/
def urlPath (u : List UInt8) : List UInt8 :=
  (if eqIgnoreCase (u.take schemeText.length) schemeText then u.drop schemeText.length
    else u).dropWhile fun b => b ≠ slash

/-- Method, URL and version as the blanks separate them. -/
def requestFields (t : List UInt8) : Option (List UInt8 × List UInt8 × List UInt8) :=
  match splitAt blanks t with
  | none => none
  | some (m, r) =>
    match splitAt blanks (r.dropWhile fun b => b ∈ blanks) with
    | none => none
    | some (u, r) => some (m, u, r.dropWhile fun b => b ∈ blanks)

section Language

variable {t m u v : List UInt8}

theorem eqIgnoreCase_iff {a b : List UInt8} :
    eqIgnoreCase a b = true ↔ a.map toLower = b.map toLower := by
  simp only [eqIgnoreCase, decide_eq_true_eq]

theorem not_blank_of_eqIgnoreCase {lit : List UInt8} (h : eqIgnoreCase m lit)
    (hlit : (lit.map toLower).all fun b => b ∉ blanks) : ∀ x ∈ m, x ∉ blanks := by
  intro x hx hb
  have hlow : toLower x = x := by
    have hall : blanks.all fun b => toLower b = b := by decide
    exact of_decide_eq_true (List.all_eq_true.mp hall x hb)
  have hmem : toLower x ∈ m.map toLower := List.mem_map_of_mem hx
  rw [eqIgnoreCase_iff.mp h, hlow] at hmem
  exact of_decide_eq_true (List.all_eq_true.mp hlit x hmem) hb

/-- A text that starts with a blank run is that run and the rest. -/
theorem dropWhile_blank {b r : List UInt8} (hb : ∀ x ∈ b, x ∈ blanks)
    (hr : ∀ x, r.head? = some x → x ∉ blanks) :
    (b ++ r).dropWhile (fun x => x ∈ blanks) = r := by
  induction b with
  | nil =>
    cases r with
    | nil => rfl
    | cons x r =>
      have hx : x ∉ blanks := hr x rfl
      simp [hx]
  | cons x b ih =>
    have hx : x ∈ blanks := hb x List.mem_cons_self
    simp only [List.cons_append, List.dropWhile_cons, hx, decide_true, if_true]
    exact ih fun y hy => hb y (List.mem_cons_of_mem x hy)

theorem dropWhile_blank_split (r : List UInt8) :
    ∃ b, r = b ++ r.dropWhile (fun x => x ∈ blanks) ∧ ∀ x ∈ b, x ∈ blanks := by
  refine ⟨r.takeWhile (fun x => x ∈ blanks), (List.takeWhile_append_dropWhile).symm, ?_⟩
  intro x hx
  exact of_decide_eq_true (List.mem_takeWhile_imp (p := fun x => decide (x ∈ blanks)) hx)

theorem dropWhile_until {a r : List UInt8} {c : UInt8} (ha : ∀ x ∈ a, x ≠ c) :
    (a ++ c :: r).dropWhile (fun b => b ≠ c) = c :: r := by
  induction a with
  | nil => simp
  | cons x a ih =>
    have hx : x ≠ c := ha x List.mem_cons_self
    simp only [List.cons_append, List.dropWhile_cons, hx, ne_eq, not_false_eq_true, decide_true,
      if_true]
    exact ih fun y hy => ha y (List.mem_cons_of_mem x hy)

theorem ValidUrl.head (h : ValidUrl u) (hu : ∀ b ∈ u, b ∉ blanks) :
    ∀ r x, (u ++ r).head? = some x → x ∉ blanks := by
  intro r x hx
  cases u with
  | nil =>
    rcases h with h | ⟨h, _⟩
    · cases h
    · exact absurd h (by decide)
  | cons y u =>
    cases hx
    exact hu x List.mem_cons_self

theorem validRequestLine_iff_url : ValidRequestLine t ↔ ∃ u, RequestFor t u := by
  constructor
  · rintro ⟨m, b₁, u, b₂, v, h⟩
    exact ⟨u, m, b₁, b₂, v, h⟩
  · rintro ⟨u, m, b₁, b₂, v, h⟩
    exact ⟨m, b₁, u, b₂, v, h⟩

/-- The blanks separate the fields the line was put together from. -/
theorem RequestFor.fields (h : RequestFor t u) : ∃ m v, requestFields t = some (m, u, v) ∧
    eqIgnoreCase m getText ∧ eqIgnoreCase v versionText ∧ ValidUrl u := by
  obtain ⟨m, b₁, b₂, v, rfl, hm, ⟨hne₁, hb₁⟩, hu, hurl, ⟨hne₂, hb₂⟩, hv⟩ := h
  have hmb := not_blank_of_eqIgnoreCase hm (by decide)
  have hvb := not_blank_of_eqIgnoreCase hv (by decide)
  obtain ⟨x₁, c₁, rfl⟩ := List.exists_cons_of_ne_nil hne₁
  obtain ⟨x₂, c₂, rfl⟩ := List.exists_cons_of_ne_nil hne₂
  obtain ⟨hx₁, hc₁⟩ := List.forall_mem_cons.mp hb₁
  obtain ⟨hx₂, hc₂⟩ := List.forall_mem_cons.mp hb₂
  refine ⟨m, v, ?_, hm, hv, hurl⟩
  have h1 : splitAt blanks (m ++ x₁ :: c₁ ++ u ++ x₂ :: c₂ ++ v) =
      some (m, c₁ ++ (u ++ x₂ :: (c₂ ++ v))) := by
    simp only [List.append_assoc, List.cons_append]
    exact splitAt_append hmb hx₁
  have h2 : (c₁ ++ (u ++ x₂ :: (c₂ ++ v))).dropWhile (fun b => b ∈ blanks) =
      u ++ x₂ :: (c₂ ++ v) := dropWhile_blank hc₁ (hurl.head hu _)
  have h3 : (c₂ ++ v).dropWhile (fun b => b ∈ blanks) = v :=
    dropWhile_blank hc₂ fun x hx => hvb x (List.mem_of_mem_head? hx)
  simp only [requestFields, h1, h2, splitAt_append hu hx₂, h3]

theorem validRequestLine_iff : ValidRequestLine t ↔ ∃ m u v, requestFields t = some (m, u, v) ∧
    eqIgnoreCase m getText ∧ eqIgnoreCase v versionText ∧ ValidUrl u := by
  constructor
  · intro h
    obtain ⟨u, h⟩ := validRequestLine_iff_url.mp h
    obtain ⟨m, v, h⟩ := h.fields
    exact ⟨m, u, v, h⟩
  · rintro ⟨m, u, v, hf, hm, hv, hurl⟩
    simp only [requestFields] at hf
    split at hf
    · cases hf
    · rename_i m' r₁ h1
      split at hf
      · cases hf
      · rename_i u' r₂ h2
        cases hf
        obtain ⟨x₁, hx₁, rfl, _⟩ := splitAt_eq_some h1
        obtain ⟨x₂, hx₂, he₂, hu⟩ := splitAt_eq_some h2
        obtain ⟨c₁, hr₁, hc₁⟩ := dropWhile_blank_split r₁
        obtain ⟨c₂, hr₂, hc₂⟩ := dropWhile_blank_split r₂
        refine ⟨m, x₁ :: c₁, u, x₂ :: c₂, _, ?_, hm,
          ⟨List.cons_ne_nil _ _, List.forall_mem_cons.mpr ⟨hx₁, hc₁⟩⟩, hu, hurl,
          ⟨List.cons_ne_nil _ _, List.forall_mem_cons.mpr ⟨hx₂, hc₂⟩⟩, hv⟩
        rw [hr₁, he₂]
        conv_lhs => rw [hr₂]
        simp only [List.append_assoc, List.cons_append]

end Language

/-! ## The steps accept the language -/

section Steps

variable {buf : List UInt8} {text url : Nat}

/-- `strncasecmp( s, lit, n ) == 0` means that `s` has `n` characters. -/
theorem strncaseeq_length {lit : List UInt8} (h : strncaseeq buf url lit = true) :
    lit.length ≤ (cstr buf url).length := by
  have hlen := congrArg List.length (eqIgnoreCase_iff.mp h)
  rw [List.length_map, List.length_map, List.length_take] at hlen
  omega

/-- The last test: `szURL`, moved behind `http://` if that is there, points to a slash. -/
theorem url_valid_iff (buf : List UInt8) (url : Nat) : ((if strncaseeq buf url schemeText then
    strchr buf (url + schemeText.length) slash else some url).any fun u => buf.getD u 0 = slash) =
    true ↔ ValidUrl (cstr buf url) := by
  have hhead := cstr_head? buf url (c := slash) (by decide)
  by_cases hs : strncaseeq buf url schemeText
  · have hnot : (cstr buf url).head? ≠ some slash := by
      intro h
      have heq := eqIgnoreCase_iff.mp hs
      have htake : ((cstr buf url).take schemeText.length).head? = some slash := by
        rw [List.head?_take, if_neg (by decide), h]
      have hlow : ((cstr buf url).take schemeText.length |>.map toLower).head? = some slash := by
        rw [List.head?_map, htake]
        rfl
      rw [heq] at hlow
      exact absurd hlow (by decide)
    have hlen := strncaseeq_length hs
    have hdrop := cstr_add buf url hlen
    rw [if_pos hs, strchr, strpbrk_eq, hdrop]
    have hurl : ValidUrl (cstr buf url) ↔ slash ∈ (cstr buf url).drop schemeText.length := by
      constructor
      · rintro (h | ⟨_, h⟩)
        · exact absurd h hnot
        · exact h
      · exact fun h => .inr ⟨hs, h⟩
    rw [hurl]
    cases hsplit : splitAt [slash] ((cstr buf url).drop schemeText.length) with
    | none =>
      have hno := splitAt_eq_none.mp hsplit
      constructor
      · intro h
        cases h
      · intro h
        exact absurd List.mem_cons_self (hno slash h)
    | some ar =>
      obtain ⟨a, r⟩ := ar
      obtain ⟨c, hc, hl, _⟩ := splitAt_eq_some hsplit
      have hc : c = slash := List.mem_singleton.mp hc
      subst hc
      -- the character found is the slash
      have hfound : cstr buf (url + schemeText.length + a.length) = slash :: r := by
        rw [cstr_add buf _ (by rw [hdrop, hl, List.length_append]; omega), hdrop, hl,
          List.drop_left]
      have hbyte : buf.getD (url + schemeText.length + a.length) 0 = slash :=
        (cstr_head? buf _ (by decide)).mp (by rw [hfound]; rfl)
      constructor
      · intro _
        rw [hl]
        exact List.mem_append_right _ List.mem_cons_self
      · intro _
        exact decide_eq_true hbyte
  · rw [if_neg hs]
    constructor
    · intro h
      exact .inl (hhead.mpr (of_decide_eq_true h))
    · rintro (h | ⟨h, _⟩)
      · exact decide_eq_true (hhead.mp h)
      · exact absurd h hs

/-- What `m_url` is on success: the URL from its first slash, behind the scheme if there is one. -/
theorem url_path {i : Nat} (h : (if strncaseeq buf url schemeText then
    strchr buf (url + schemeText.length) slash else some url) = some i)
    (hi : buf.getD i 0 = slash) : cstr buf i = urlPath (cstr buf url) := by
  by_cases hs : strncaseeq buf url schemeText
  · have hscheme : eqIgnoreCase ((cstr buf url).take schemeText.length) schemeText = true := hs
    have hdrop := cstr_add buf url (strncaseeq_length hs)
    rw [if_pos hs, strchr, strpbrk_eq, hdrop] at h
    obtain ⟨⟨a, r⟩, hsplit, rfl⟩ := Option.map_eq_some_iff.mp h
    obtain ⟨c, hc, hl, ha⟩ := splitAt_eq_some hsplit
    have hc : c = slash := List.mem_singleton.mp hc
    subst hc
    have hfound : cstr buf (url + schemeText.length + a.length) = slash :: r := by
      rw [cstr_add buf _ (by rw [hdrop, hl, List.length_append]; omega), hdrop, hl, List.drop_left]
    rw [hfound, urlPath, if_pos hscheme, hl]
    exact (dropWhile_until fun x hx => List.mem_singleton.not.mp (ha x hx)).symm
  · have hscheme : ¬ eqIgnoreCase ((cstr buf url).take schemeText.length) schemeText = true := hs
    rw [if_neg hs] at h
    cases h
    have hhead := (cstr_head? buf url (c := slash) (by decide)).mpr hi
    obtain ⟨r, hr⟩ := List.head?_eq_some_iff.mp hhead
    rw [urlPath, if_neg hscheme, hr]
    exact (dropWhile_until (a := []) fun x hx => absurd hx List.not_mem_nil).symm

/-- Either the steps get to the last test, with URL and version cut out of the line, or they fail
and the line has no such fields. -/
theorem parseRequestLine_cases (buf : List UInt8) (text : Nat) (version : Option Nat) :
    (∃ m u v buf' url version', requestFields (cstr buf text) = some (m, u, v) ∧
      eqIgnoreCase m getText ∧ eqIgnoreCase v versionText ∧ cstr buf' url = u ∧
      parseRequestLine buf text version =
        { readBuf := buf'
          url := if strncaseeq buf' url schemeText then
            strchr buf' (url + schemeText.length) slash else some url
          version := some version'
          isGet := true
          valid := (if strncaseeq buf' url schemeText then
            strchr buf' (url + schemeText.length) slash else some url).any fun u =>
              buf'.getD u 0 = slash }) ∨
    ((parseRequestLine buf text version).valid = false ∧
      ∀ m u v, requestFields (cstr buf text) = some (m, u, v) → eqIgnoreCase m getText →
        ¬ eqIgnoreCase v versionText) := by
  simp only [parseRequestLine, requestFields]
  rw [strpbrk_eq]
  cases h1 : splitAt blanks (cstr buf text) with
  | none => exact .inr ⟨rfl, fun m u v h => by cases h⟩
  | some mr =>
    obtain ⟨m, r⟩ := mr
    obtain ⟨_, hm, hr, _⟩ := split_spec h1
    simp only [Option.map_some]
    generalize buf.set (text + m.length) 0 = buf₁ at hm hr
    generalize text + m.length + 1 = after at hr
    have hskip := cstr_strspn buf₁ after blanks
    rw [hr] at hskip
    have hmeth : strcaseeq buf₁ text getText = eqIgnoreCase m getText := by
      rw [strcaseeq, hm]
    generalize after + strspn buf₁ after blanks = url at hskip
    rw [hmeth, strpbrk_eq, hskip]
    cases h2 : splitAt blanks (r.dropWhile fun b => b ∈ blanks) with
    | none =>
      refine .inr ⟨?_, fun m u v h => by cases h⟩
      by_cases hget : eqIgnoreCase m getText
      · simp only [hget, if_true, Option.map_none]
      · simp only [hget, if_false, Bool.false_eq_true]
    | some ur =>
      obtain ⟨u, r₂⟩ := ur
      rw [← hskip] at h2
      obtain ⟨_, hu, hr₂, _⟩ := split_spec h2
      simp only [Option.map_some]
      generalize buf₁.set (url + u.length) 0 = buf₂ at hu hr₂
      generalize url + u.length + 1 = after₂ at hr₂
      have hskip₂ := cstr_strspn buf₂ after₂ blanks
      rw [hr₂] at hskip₂
      generalize after₂ + strspn buf₂ after₂ blanks = version' at hskip₂
      have hver : strcaseeq buf₂ version' versionText =
          eqIgnoreCase (r₂.dropWhile fun b => b ∈ blanks) versionText := by
        rw [strcaseeq, hskip₂]
      rw [hver]
      by_cases hget : eqIgnoreCase m getText
      · rw [if_pos hget]
        by_cases hv : eqIgnoreCase (r₂.dropWhile fun b => b ∈ blanks) versionText
        · rw [if_pos hv]
          exact .inl ⟨m, u, _, buf₂, url, version', rfl, hget, hv, hu, rfl⟩
        · rw [if_neg hv]
          refine .inr ⟨rfl, ?_⟩
          rintro _ _ _ h _
          cases h
          exact hv
      · rw [if_neg hget]
        refine .inr ⟨rfl, ?_⟩
        rintro _ _ _ h h'
        cases h
        exact absurd h' hget

/-- The steps accept exactly the valid request lines. -/
theorem parseRequestLine_valid (buf : List UInt8) (text : Nat) (version : Option Nat) :
    (parseRequestLine buf text version).valid = true ↔ ValidRequestLine (cstr buf text) := by
  rw [validRequestLine_iff]
  rcases parseRequestLine_cases buf text version with
    ⟨m, u, v, buf', url, version', hf, hm, hv, hu, h⟩ | ⟨h, hnot⟩
  · rw [h]
    refine (url_valid_iff buf' url).trans ?_
    rw [hu, hf]
    constructor
    · intro hurl
      exact ⟨m, u, v, rfl, hm, hv, hurl⟩
    · rintro ⟨_, _, _, hsame, _, _, hurl⟩
      cases hsame
      exact hurl
  · rw [h]
    constructor
    · intro hvalid
      cases hvalid
    · rintro ⟨m, u, v, hf, hm, hv, _⟩
      exact absurd hv (hnot m u v hf hm)

/-- On success `m_url` is the URL of the line from its first slash. -/
theorem parseRequestLine_urlPath {u : List UInt8} (version : Option Nat)
    (h : RequestFor (cstr buf text) u) : ∃ i, (parseRequestLine buf text version).url = some i ∧
      cstr (parseRequestLine buf text version).readBuf i = urlPath u := by
  have hvalid := (parseRequestLine_valid buf text version).mpr (validRequestLine_iff_url.mpr ⟨u, h⟩)
  obtain ⟨m, v, hf, _⟩ := h.fields
  rcases parseRequestLine_cases buf text version with
    ⟨_, _, _, buf', url, version', hf', _, _, hu, h⟩ | ⟨h, _⟩
  · rw [hf] at hf'
    cases hf'
    rw [h] at hvalid ⊢
    obtain ⟨i, hi, hslash⟩ := (Option.any_eq_true _ _).mp hvalid
    refine ⟨i, hi, ?_⟩
    rw [← hu]
    exact url_path hi (of_decide_eq_true hslash)
  · rw [h] at hvalid
    cases hvalid

end Steps

/-! ## Within the line -/

section Within

variable {buf rest : List UInt8} {text : Nat}

theorem parseRequestLine_length (buf : List UInt8) (text : Nat) (version : Option Nat) :
    (parseRequestLine buf text version).readBuf.length = buf.length := by
  simp only [parseRequestLine]
  split
  · rfl
  · split
    · split
      · rw [List.length_set]
      · split
        · rw [List.length_set, List.length_set]
        · rw [List.length_set, List.length_set]
    · rw [List.length_set]

/-- A cut in a terminated string: both parts are terminated, and the cut is inside the memory. -/
theorem strpbrk_terminated {accept : List UInt8} {i : Nat} (ht : Terminated buf text)
    (h : strpbrk buf text accept = some i) : i < buf.length ∧ Terminated (buf.set i 0) text ∧
      Terminated (buf.set i 0) (i + 1) := by
  rw [strpbrk_eq] at h
  obtain ⟨⟨a, r⟩, hsplit, hi⟩ := Option.map_eq_some_iff.mp h
  obtain ⟨hlt, _, _, hle⟩ := split_spec hsplit
  have hi : text + a.length = i := hi
  subst hi
  refine ⟨hlt, ht.set _, ?_⟩
  rw [Nat.add_assoc]
  exact (ht.add hle).set _

theorem strspn_terminated (accept : List UInt8) (ht : Terminated buf text) :
    Terminated buf (text + strspn buf text accept) := ht.add (strspn_le buf text accept)

theorem getD_append {i : Nat} (hi : i < buf.length) : (buf ++ rest).getD i 0 = buf.getD i 0 := by
  rw [List.getD_eq_getElem?_getD, List.getD_eq_getElem?_getD, List.getElem?_append_left hi]

/-- What is behind the line's terminator neither matters nor is changed. -/
theorem parseRequestLine_append (ht : Terminated buf text) (rest : List UInt8)
    (version : Option Nat) : parseRequestLine (buf ++ rest) text version =
      { parseRequestLine buf text version with
        readBuf := (parseRequestLine buf text version).readBuf ++ rest } := by
  simp only [parseRequestLine]
  rw [strpbrk_append ht]
  cases h1 : strpbrk buf text blanks with
  | none => rfl
  | some i =>
    obtain ⟨hi, ht₁, hi₁⟩ := strpbrk_terminated ht h1
    simp only []
    rw [List.set_append_left i 0 hi]
    generalize buf.set i 0 = buf₁ at ht₁ hi₁
    rw [strcaseeq_append ht₁, strspn_append hi₁]
    have hurl := strspn_terminated blanks hi₁
    generalize i + 1 + strspn buf₁ (i + 1) blanks = url at hurl
    rw [strpbrk_append hurl]
    cases strcaseeq buf₁ text getText with
    | false => rfl
    | true =>
      simp only [if_true]
      cases h2 : strpbrk buf₁ url blanks with
      | none => rfl
      | some j =>
        obtain ⟨hj, hurl₂, hj₂⟩ := strpbrk_terminated hurl h2
        simp only []
        rw [List.set_append_left j 0 hj]
        generalize buf₁.set j 0 = buf₂ at hurl₂ hj₂
        rw [strspn_append hj₂]
        have hver := strspn_terminated blanks hj₂
        generalize j + 1 + strspn buf₂ (j + 1) blanks = version' at hver
        rw [strcaseeq_append hver, strncaseeq_append hurl₂]
        cases strcaseeq buf₂ version' versionText with
        | false => rfl
        | true =>
          simp only [if_true]
          by_cases hs : strncaseeq buf₂ url schemeText
          · have hrest : Terminated buf₂ (url + schemeText.length) :=
              hurl₂.add (strncaseeq_length hs)
            simp only [hs, if_true]
            rw [strchr, strchr, strpbrk_append hrest]
            cases h3 : strpbrk buf₂ (url + schemeText.length) [slash] with
            | none => rfl
            | some u =>
              have hu := (strpbrk_terminated hrest h3).1
              simp only [Option.any_some, getD_append hu]
          · simp only [hs, if_false, Bool.false_eq_true, Option.any_some, getD_append hurl₂.lt]

/-- The URL of a valid request line is a string within the line. -/
theorem parseRequestLine_url (ht : Terminated buf text) (version : Option Nat)
    (hv : (parseRequestLine buf text version).valid = true) :
    ∃ u, (parseRequestLine buf text version).url = some u ∧
      Terminated (parseRequestLine buf text version).readBuf u := by
  simp only [parseRequestLine] at hv ⊢
  cases h1 : strpbrk buf text blanks with
  | none =>
    simp only [h1] at hv
    cases hv
  | some i =>
    obtain ⟨_, ht₁, hi₁⟩ := strpbrk_terminated ht h1
    simp only [h1] at hv ⊢
    generalize buf.set i 0 = buf₁ at ht₁ hi₁ hv ⊢
    have hurl := strspn_terminated blanks hi₁
    generalize i + 1 + strspn buf₁ (i + 1) blanks = url at hurl hv ⊢
    cases hg : strcaseeq buf₁ text getText with
    | false =>
      simp only [hg, if_false, Bool.false_eq_true] at hv
    | true =>
      simp only [hg, if_true] at hv ⊢
      cases h2 : strpbrk buf₁ url blanks with
      | none =>
        simp only [h2] at hv
        cases hv
      | some j =>
        obtain ⟨_, hurl₂, _⟩ := strpbrk_terminated hurl h2
        simp only [h2] at hv ⊢
        generalize buf₁.set j 0 = buf₂ at hurl₂ hv ⊢
        generalize j + 1 + strspn buf₂ (j + 1) blanks = version' at hv ⊢
        cases hver : strcaseeq buf₂ version' versionText with
        | false =>
          simp only [hver, if_false, Bool.false_eq_true] at hv
        | true =>
          simp only [hver, if_true] at hv ⊢
          by_cases hs : strncaseeq buf₂ url schemeText
          · have hrest : Terminated buf₂ (url + schemeText.length) :=
              hurl₂.add (strncaseeq_length hs)
            simp only [hs, if_true] at hv ⊢
            cases h3 : strchr buf₂ (url + schemeText.length) slash with
            | none =>
              rw [h3] at hv
              cases hv
            | some u =>
              rw [strchr, strpbrk_eq] at h3
              obtain ⟨⟨a, r⟩, hsplit, hu⟩ := Option.map_eq_some_iff.mp h3
              obtain ⟨_, _, _, hle⟩ := split_spec hsplit
              have hu : url + schemeText.length + a.length = u := hu
              subst hu
              exact ⟨_, rfl, hrest.add (Nat.le_of_succ_le hle)⟩
          · simp only [hs, if_false, Bool.false_eq_true]
            exact ⟨url, rfl, hurl₂⟩

end Within
end Unpvol1.Http
