import Unpvol1.Http.HttpConnWrite
import Unpvol1.Http.HttpConnHead

/-!
# Http.HttpConnResponse

The response `process_write` prepares, as a text.

* `responseText` — status line, content length, `Connection` header, blank line, body.
* `decimal_inj` — the content length of a response can be read back.
* `errorPage_text`, `processWrite_file` — what the two kinds of cases offer to the socket.
* `processRead_answered` — the codes that `process_read` hands to `process_write`.
* `wellFormed_iff` — a well-formed response is prepared unless the file is empty or its size is no
  `int`.
-/

namespace Unpvol1.HttpConnWrite

open HttpConn (HttpCode toInt32)

def statusText (status : Int) (title : List UInt8) : List UInt8 :=
  versionText ++ decimal status ++ [32] ++ title ++ endOfLine

def headersText (contentLen : Int) (linger : Bool) : List UInt8 :=
  contentLengthText ++ decimal contentLen ++ endOfLine ++
    (connectionText ++ (if linger then keepAliveText else closeText) ++ endOfLine) ++ endOfLine

/-- A well-formed response. -/
def responseText (status : Int) (title : List UInt8) (linger : Bool) (body : List UInt8) :
    List UInt8 :=
  statusText status title ++ headersText body.length linger ++ body

/-- Status, title and body of the answer to a code, if there is one. -/
def answer (file : List UInt8) : HttpCode → Option (Int × List UInt8 × List UInt8)
  | .internalError => some (500, error500Title, error500Form)
  | .badRequest => some (400, error400Title, error400Form)
  | .noResource => some (404, error404Title, error404Form)
  | .forbiddenRequest => some (403, error403Title, error403Form)
  | .fileRequest => some (200, ok200Title, file)
  | _ => none

theorem header_split (status : Int) (title : List UInt8) (contentLen : Int) (linger : Bool)
    (body : List UInt8) : statusText status title ++ headersText contentLen linger ++ body =
      statusText status title ++ contentLengthText ++ (decimal contentLen ++ endOfLine ++
        (connectionText ++ (if linger then keepAliveText else closeText) ++ endOfLine ++
          endOfLine ++ body)) := by
  simp only [headersText, List.append_assoc]

/-! ## Numbers in the header -/

theorem decimal_length_le {n : Int} (h : n.natAbs < 10 ^ 10) : (decimal n).length ≤ 11 := by
  have hdigits := (Nat.length_toDigits_le_iff (b := 10) (n := n.natAbs) (k := 10) (by decide)
    (by decide)).mpr h
  have hsign : (if n < 0 then [45] else [] : List UInt8).length ≤ 1 := by
    split
    · exact Nat.le_refl 1
    · exact Nat.zero_le 1
  rw [decimal, List.length_append, List.length_map]
  omega

theorem toDigits_inj {a b : Nat} (h : Nat.toDigits 10 a = Nat.toDigits 10 b) : a = b := by
  rw [← Nat.ofDigitChars_ten_toDigits (n := a), h, Nat.ofDigitChars_ten_toDigits]

/-- The digits can be read back from the bytes. -/
theorem digits_of_bytes (n : Nat) : ((Nat.toDigits 10 n).map fun c => c.toNat.toUInt8).map
    (fun b => Char.ofNat b.toNat) = Nat.toDigits 10 n := by
  rw [List.map_map]
  refine (List.map_congr_left fun ch hch => ?_).trans (List.map_id _)
  obtain ⟨_, _, hbyte⟩ := digit_byte hch
  simp only [Function.comp_apply, hbyte, Char.ofNat_toNat, id_eq]

theorem decimal_nonneg {n : Int} (h : ¬ n < 0) :
    decimal n = (Nat.toDigits 10 n.natAbs).map fun c => c.toNat.toUInt8 := by
  rw [decimal, if_neg h, List.nil_append]

theorem decimal_neg {n : Int} (h : n < 0) :
    decimal n = 45 :: (Nat.toDigits 10 n.natAbs).map fun c => c.toNat.toUInt8 := by
  rw [decimal, if_pos h]
  rfl

theorem decimal_head {n : Int} : (decimal n).head? = some 45 ↔ n < 0 := by
  constructor
  · intro h
    by_contra hn
    rw [decimal_nonneg hn, List.head?_map] at h
    obtain ⟨ch, hch, e⟩ := Option.map_eq_some_iff.mp h
    obtain ⟨hlo, _, hbyte⟩ := digit_byte (List.mem_of_mem_head? hch)
    rw [e] at hbyte
    have h45 : ch.toNat = 45 := hbyte.symm
    omega
  · intro h
    rw [decimal_neg h]
    rfl

theorem decimal_inj {a b : Int} (h : decimal a = decimal b) : a = b := by
  have hsign : a < 0 ↔ b < 0 := by
    rw [← decimal_head, h, decimal_head]
  have hdigits : a.natAbs = b.natAbs := by
    refine toDigits_inj ?_
    rw [← digits_of_bytes a.natAbs, ← digits_of_bytes b.natAbs]
    by_cases ha : a < 0
    · rw [decimal_neg ha, decimal_neg (hsign.mp ha)] at h
      rw [List.tail_eq_of_cons_eq h]
    · rw [decimal_nonneg ha, decimal_nonneg fun hb => ha (hsign.mpr hb)] at h
      rw [h]
  omega

/-- A number in the header ends with its line. -/
theorem decimal_line_inj {a b : Int} {r r' : List UInt8}
    (h : decimal a ++ endOfLine ++ r = decimal b ++ endOfLine ++ r') : a = b ∧ r = r' := by
  have hsplit : ∀ (n : Int) (r : List UInt8),
      splitAt [13] (decimal n ++ endOfLine ++ r) = some (decimal n, 10 :: r) := by
    intro n r
    rw [List.append_assoc]
    refine splitAt_append (fun x hx hcr => ?_) List.mem_cons_self
    rw [List.mem_singleton.mp hcr] at hx
    exact not_mem_decimal (by decide) (.inl (by decide)) hx
  have hsame := (hsplit a r).symm.trans ((congrArg (splitAt [13]) h).trans (hsplit b r'))
  obtain ⟨hnum, hrest⟩ := Prod.mk.inj (Option.some.inj hsame)
  exact ⟨decimal_inj hnum, List.tail_eq_of_cons_eq hrest⟩

/-! ## What the cases prepare -/

section Cases

variable {c : WriteSide}

theorem addResponse_fits (hc : c.writeBuf.length = writeBufferSize) (text : List UInt8)
    (hfit : c.writeIdx + text.length < writeBufferSize - 1) :
    (addResponse c text).2 = true ∧ Adds c (addResponse c text).1 text := by
  obtain ⟨hadds, hok⟩ := addResponse_adds hc text
  rw [if_pos (hok hfit)] at hadds
  exact ⟨hok hfit, hadds⟩

theorem addResponse_fileSize (c : WriteSide) (text : List UInt8) :
    (addResponse c text).1.fileSize = c.fileSize := by
  unfold addResponse
  split
  · rfl
  · simp only []
    split
    · rfl
    · rfl

theorem Adds.linger {c' : WriteSide} {t : List UInt8} (h : Adds c c' t) :
    c'.linger = c.linger := by
  rw [h.same]

theorem addHeaders_adds (contentLen : Int) (hc : c.writeBuf.length = writeBufferSize)
    (hfit : c.writeIdx + (headersText contentLen c.linger).length < writeBufferSize - 1) :
    Adds c (addHeaders c contentLen) (headersText contentLen c.linger) := by
  simp only [headersText, List.length_append] at hfit
  have h₁ := (addResponse_fits hc (contentLengthText ++ decimal contentLen ++ endOfLine)
    (by simp only [List.length_append]; omega)).2
  have hc₁ := h₁.size.trans hc
  have hi₁ := h₁.idx
  simp only [List.length_append] at hi₁
  have h₂ := (addResponse_fits hc₁
    (connectionText ++ (if c.linger then keepAliveText else closeText) ++ endOfLine)
    (by simp only [List.length_append]; omega)).2
  have hi₂ := h₂.idx
  simp only [List.length_append] at hi₂
  have h₃ := (addResponse_fits (h₂.size.trans hc₁) endOfLine (by omega)).2
  have hall := (h₁.trans h₂).trans h₃
  rw [← h₁.linger] at hall ⊢
  exact hall

/-- The header of a response, and an empty buffer it is written to. -/
theorem header_adds (status : Int) (title : List UInt8) (contentLen : Int)
    (hc : c.writeBuf.length = writeBufferSize) (hz : c.writeIdx = 0)
    (hfit : (statusText status title ++ headersText contentLen c.linger).length <
      writeBufferSize - 1) :
    Adds c (addStatusLine c status title).1 (statusText status title) ∧
      Adds c (addHeaders (addStatusLine c status title).1 contentLen)
        (statusText status title ++ headersText contentLen c.linger) := by
  rw [List.length_append] at hfit
  have h₁ := (addResponse_fits hc (statusText status title) (by omega)).2
  have h₂ := addHeaders_adds contentLen (h₁.size.trans hc)
    (by rw [h₁.linger, h₁.idx]; omega)
  rw [h₁.linger] at h₂
  exact ⟨h₁, h₁.trans h₂⟩

theorem errorPage_text {status : Int} {title form : List UInt8}
    (hc : c.writeBuf.length = writeBufferSize) (hz : c.writeIdx = 0)
    (hfit : (responseText status title c.linger form).length < writeBufferSize - 1) :
    ∃ c', errorPage c status title form = (c', true) ∧
      offered c' = responseText status title c.linger form := by
  rw [responseText, List.length_append] at hfit
  have hhead := (header_adds status title form.length hc hz
    (by omega)).2
  obtain ⟨hok, hform⟩ := addResponse_fits (hhead.size.trans hc) form (by rw [hhead.idx]; omega)
  have hall := hhead.trans hform
  simp only [errorPage, addContent]
  generalize addResponse (addHeaders (addStatusLine c status title).1 form.length) form = r
    at hok hall
  obtain ⟨c₁, ok⟩ := r
  cases hok
  refine ⟨_, rfl, ?_⟩
  simp only [offered, List.flatMap_cons, List.flatMap_nil, List.append_nil]
  rw [hall.text, hz, List.take_zero, List.nil_append]
  rfl

/-- What the headers for a file come to. -/
theorem processWrite_file {file : List UInt8} (hc : c.writeBuf.length = writeBufferSize)
    (hz : c.writeIdx = 0) (ha : c.fileAddress = some file) (hs : c.fileSize = file.length)
    (hpos : 0 < file.length) : ∃ c', processWrite c .fileRequest = (c', true) ∧
      offered c' = statusText 200 ok200Title ++ headersText (toInt32 file.length) c.linger ++
        file := by
  have hint := Int.le_bmod (x := file.length) (m := 2 ^ 32) (by decide)
  have hint' := Int.bmod_lt (x := file.length) (m := 2 ^ 32) (by decide)
  have hdigits : (decimal (toInt32 file.length)).length ≤ 11 := by
    refine decimal_length_le ?_
    rw [toInt32]
    omega
  have hlinger : ∀ l : Bool, (if l then keepAliveText else closeText).length ≤ 10 := by decide
  have hfit : (statusText 200 ok200Title ++ headersText (toInt32 file.length) c.linger).length <
      writeBufferSize - 1 := by
    have h200 : (statusText 200 ok200Title).length = 17 := by decide
    have h₁ : contentLengthText.length = 16 := rfl
    have h₂ : connectionText.length = 12 := rfl
    have h₃ : endOfLine.length = 2 := rfl
    have h₄ := hlinger c.linger
    simp only [headersText, List.length_append, h200, h₁, h₂, h₃, writeBufferSize]
    omega
  obtain ⟨hline, hhead⟩ := header_adds 200 ok200Title (toInt32 file.length) hc hz hfit
  have hsize : (addStatusLine c 200 ok200Title).1.fileSize = file.length := by
    rw [hline.same]
    exact hs
  simp only [processWrite, hsize]
  rw [if_pos (Nat.ne_of_gt hpos)]
  refine ⟨_, rfl, ?_⟩
  generalize addHeaders (addStatusLine c 200 ok200Title).1 (toInt32 file.length) = c₁ at hhead
  have haddr : c₁.fileAddress = some file := by
    rw [hhead.same]
    exact ha
  have hsize₁ : c₁.fileSize = file.length := by
    rw [hhead.same]
    exact hs
  rw [offered_file haddr hsize₁, hhead.text, hz, List.take_zero, List.nil_append]

/-- The case for an empty file falls through to `default`. -/
theorem processWrite_empty (hs : c.fileSize = 0) (c' : WriteSide) :
    processWrite c .fileRequest ≠ (c', true) := by
  have hline : (addStatusLine c 200 ok200Title).1.fileSize = 0 :=
    (addResponse_fileSize c (statusText 200 ok200Title)).trans hs
  simp only [processWrite, hline]
  intro h
  cases (Prod.mk.inj h).2

end Cases

/-! ## The codes -/

/-- `process_write` has an answer to whatever `process_read` decides. -/
theorem processRead_answered {fs : HttpConn.FileSystem} {p q : HttpConn.Conn} {ret : HttpCode}
    (h : HttpConn.processRead fs p = some (ret, q)) (hne : ret ≠ .noRequest) (file : List UInt8) :
    (answer file ret).isSome := by
  rcases HttpConn.processRead_codes h with rfl | rfl | rfl | rfl | rfl
  · exact absurd rfl hne
  · rfl
  · rfl
  · rfl
  · rfl

theorem toInt32_eq_iff {n : Nat} : toInt32 n = n ↔ n < 2 ^ 31 := by
  have hlt := Int.bmod_lt (x := (n : Int)) (m := 2 ^ 32) (by decide)
  rw [toInt32]
  constructor
  · intro h
    omega
  · intro h
    exact Int.bmod_eq_of_le (by omega) (by omega)

/-- For the file, the response is well formed just when the size is not 0 and is an `int`. -/
theorem fileRequest_wellFormed_iff {c : WriteSide} {file : List UInt8}
    (hc : c.writeBuf.length = writeBufferSize) (hz : c.writeIdx = 0)
    (ha : c.fileAddress = some file) (hs : c.fileSize = file.length) :
    (∃ c' body, processWrite c .fileRequest = (c', true) ∧
      offered c' = responseText 200 ok200Title c.linger body) ↔
      0 < file.length ∧ file.length < 2 ^ 31 := by
  constructor
  · rintro ⟨c', body, hw, ho⟩
    have hpos : 0 < file.length := by
      refine Nat.pos_of_ne_zero fun h0 => ?_
      exact processWrite_empty (hs.trans h0) c' hw
    obtain ⟨c'', hw', ho'⟩ := processWrite_file hc hz ha hs hpos
    obtain rfl : c' = c'' := (Prod.mk.inj (hw.symm.trans hw')).1
    have hsame := ho'.symm.trans ho
    rw [responseText, header_split, header_split] at hsame
    obtain ⟨hlen, hrest⟩ := decimal_line_inj (List.append_cancel_left hsame)
    have hbody : file = body := List.append_cancel_left hrest
    rw [← hbody] at hlen
    exact ⟨hpos, toInt32_eq_iff.mp hlen⟩
  · rintro ⟨hpos, hlt⟩
    obtain ⟨c', hw, ho⟩ := processWrite_file hc hz ha hs hpos
    rw [toInt32_eq_iff.mpr hlt] at ho
    exact ⟨c', file, hw, ho⟩

/-- An error page fits in the buffer. -/
theorem errorPage_wellFormed {c : WriteSide} {file : List UInt8} {ret : HttpCode} {status : Int}
    {title body : List UInt8} (hc : c.writeBuf.length = writeBufferSize) (hz : c.writeIdx = 0)
    (hret : ret ≠ .fileRequest) (ha : answer file ret = some (status, title, body)) :
    ∃ c', processWrite c ret = (c', true) ∧
      offered c' = responseText status title c.linger body := by
  have hfits : ∀ l : Bool,
      (responseText 500 error500Title l error500Form).length < writeBufferSize - 1 ∧
      (responseText 400 error400Title l error400Form).length < writeBufferSize - 1 ∧
      (responseText 404 error404Title l error404Form).length < writeBufferSize - 1 ∧
      (responseText 403 error403Title l error403Form).length < writeBufferSize - 1 := by
    decide +kernel
  obtain ⟨h500, h400, h404, h403⟩ := hfits c.linger
  cases ret with
  | internalError =>
    cases ha
    exact errorPage_text hc hz h500
  | badRequest =>
    cases ha
    exact errorPage_text hc hz h400
  | noResource =>
    cases ha
    exact errorPage_text hc hz h404
  | forbiddenRequest =>
    cases ha
    exact errorPage_text hc hz h403
  | fileRequest => exact absurd rfl hret
  | noRequest => cases ha
  | getRequest => cases ha
  | closedConnection => cases ha

/-- A response to a code of `process_read`, prepared in an empty buffer, is well formed unless it is
for a file that is empty or whose size is no `int`; and then its body is the file or the page of the
code. -/
theorem wellFormed_iff {c : WriteSide} (hc : c.writeBuf.length = writeBufferSize)
    (hz : c.writeIdx = 0) {file : List UInt8} {ret : HttpCode}
    (hf : ret = .fileRequest → c.fileAddress = some file ∧ c.fileSize = file.length)
    {status : Int} {title body : List UInt8} (ha : answer file ret = some (status, title, body)) :
    ((∃ c' body', processWrite c ret = (c', true) ∧
      offered c' = responseText status title c.linger body') ↔
        (ret = .fileRequest → 0 < file.length ∧ file.length < 2 ^ 31)) ∧
    ((ret = .fileRequest → 0 < file.length ∧ file.length < 2 ^ 31) →
      ∃ c', processWrite c ret = (c', true) ∧
        offered c' = responseText status title c.linger body) := by
  by_cases hret : ret = .fileRequest
  · subst hret
    cases ha
    obtain ⟨haddr, hs⟩ := hf rfl
    refine ⟨(fileRequest_wellFormed_iff hc hz haddr hs).trans ⟨fun h _ => h, fun h => h rfl⟩, ?_⟩
    intro h
    obtain ⟨hpos, hlt⟩ := h rfl
    obtain ⟨c', hw, ho⟩ := processWrite_file hc hz haddr hs hpos
    rw [toInt32_eq_iff.mpr hlt] at ho
    exact ⟨c', hw, ho⟩
  · obtain ⟨c', hw, ho⟩ := errorPage_wellFormed hc hz hret ha
    exact ⟨⟨fun _ h => absurd h hret, fun _ => ⟨c', body, hw, ho⟩⟩, fun _ => ⟨c', hw, ho⟩⟩

/-- A file of two bytes, for a connection to be kept. -/
theorem wellFormed_two_bytes :
    ((∃ c' body', processWrite (request true [97, 98] []) .fileRequest = (c', true) ∧
      offered c' = responseText 200 ok200Title true body') ↔
        (HttpCode.fileRequest = .fileRequest → 0 < 2 ∧ 2 < 2 ^ 31)) ∧
    ((HttpCode.fileRequest = .fileRequest → 0 < 2 ∧ 2 < 2 ^ 31) →
      ∃ c', processWrite (request true [97, 98] []) .fileRequest = (c', true) ∧
        offered c' = responseText 200 ok200Title true [97, 98]) :=
  wellFormed_iff (c := request true [97, 98] []) (request_size true [97, 98] []) rfl
    (fun _ => ⟨rfl, rfl⟩) rfl

/-- For an empty file no response is prepared at all. -/
theorem not_wellFormed_empty :
    ¬ ∀ (linger : Bool) (file : List UInt8) (ret : HttpCode) (status : Int)
      (title body : List UInt8), answer file ret = some (status, title, body) →
      ∃ c' body', processWrite (request linger file []) ret = (c', true) ∧
        offered c' = responseText status title linger body' := by
  intro h
  obtain ⟨c', _, hw, _⟩ := h false [] .fileRequest 200 ok200Title [] rfl
  have hfail : (processWrite (request false [] []) .fileRequest).2 = false := by decide +kernel
  rw [hw] at hfail
  cases hfail

end Unpvol1.HttpConnWrite
