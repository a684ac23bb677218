import Unpvol1.Http.HttpConnCalls

/-!
# Http.HttpConnServe

`process_read` on a stream that comes in chunks, against one call on the whole stream.

* `HasBody` — a stream with a complete head; `AtHead` — the connection at the head's end.
* `AtHead.serve` — the calls from there on.
* `Overtaken`, `Overflown` — the streams and cuts on which the calls end otherwise than one call,
  because `parse_line` runs over the body and the content length is counted from where it stops;
  `serve_agrees_iff` — there are no others.
-/

namespace Unpvol1.HttpConn

open Http

/-! ## Whole streams -/

/-- The stream is a head of `k` bytes with content length `n`, and a body. -/
def HasBody (bs : List UInt8) (k : Nat) (n : Int) (body : List UInt8) : Prop :=
  ∃ hd hs, bs = crlf hd ++ body ∧ (∀ l ∈ hd, Clean l) ∧ IsHead hd hs ∧ k = (crlf hd).length ∧
    n = headerFields lengthField 0 hs

/-- The body is there, but in no call does it reach as far behind the scanner as it is long. -/
def Overtaken (chunks : List (List UInt8)) : Prop :=
  ∃ k n body, HasBody chunks.flatten k n body ∧ 0 < n ∧ n ≤ body.length ∧
    ∀ u ∈ calls [] chunks, (u.2.length : Int) < k + lineRun (u.1.drop k) + n

/-- The body never comes, and the content length and the position of the scanner overflow, which
they do not in one call. -/
def Overflown (chunks : List (List UInt8)) : Prop :=
  ∃ k n body, HasBody chunks.flatten k n body ∧ 0 < n ∧ body.length < n ∧
    n + k + linesLength body < 2 ^ 31 ∧
    ∃ u ∈ calls [] chunks, 2 ^ 31 ≤ n + k + lineRun (u.1.drop k)

section Streams

variable {fs : FileSystem} {m : Members} {bs body : List UInt8} {k : Nat} {n : Int}

/-- Where the line loop stands at the end of a head. -/
theorem HasBody.stop (h : HasBody bs k n body) (m : Members) :
    (run handleHead ((init m).receive bs)).1 = .stop (lengthEnd n).2 ∧
      (run handleHead ((init m).receive bs)).2.state.checkState = (lengthEnd n).1 ∧
      (run handleHead ((init m).receive bs)).2.state.contentLength = n ∧
      (run handleHead ((init m).receive bs)).2.line.checkedIdx = k ∧
      (run handleHead ((init m).receive bs)).2.line.startLine = k ∧
      (run handleHead ((init m).receive bs)).2.line.ahead = body := by
  obtain ⟨hd, hs, rfl, hclean, hhd, rfl, rfl⟩ := h
  have hsplit := splitLines_crlf hclean body
  have hf : foldLines connRule (.requestLine, 0) (splitLines (crlf hd ++ body)).1 =
      (((lengthEnd (headerFields lengthField 0 hs)).1, headerFields lengthField 0 hs),
        some ((lengthEnd (headerFields lengthField 0 hs)).2, (splitLines body).1)) := by
    rw [hsplit, connRule, fold_head hhd]
  obtain ⟨h1, h2, h3, h4⟩ := (init_run m (crlf hd ++ body)).decided hf
  rw [hsplit, ← (splitLines_spec body).1] at h3
  have hw : ((init m).receive (crlf hd ++ body)).line.Wf := LineBuf.receive_wf (init_wf m) _
  have hwr := run_wf handleHead_local _ hw
  have hread := (run_size handleHead_local _ hw).1
  have hidx : ((init m).receive (crlf hd ++ body)).line.readIdx =
      (crlf hd).length + body.length := by
    show 0 + (crlf hd ++ body).length = _
    rw [List.length_append, Nat.zero_add]
  have hlen := LineBuf.ahead_length hwr
  have hle := hwr.checked_le
  have hchecked : (run handleHead ((init m).receive (crlf hd ++ body))).2.line.checkedIdx =
      (crlf hd).length := by
    rw [h3, hread, hidx] at hlen
    rw [hread, hidx] at hle
    omega
  exact ⟨h1, congrArg Prod.fst h2, congrArg Prod.snd h2, hchecked, h4.trans hchecked, h3⟩

/-- The line loop stops at an invalid request line or at the end of a head. -/
theorem stop_cases {r : HeadEnd} (h : (run handleHead ((init m).receive bs)).1 = .stop r) :
    r = .badRequest ∨ ∃ k n body, HasBody bs k n body ∧ r = (lengthEnd n).2 := by
  have hrun := init_run m bs
  rcases stream_cases bs with ⟨hd, hs, ms, hls, hhd, _⟩ | ⟨l, ms, hls, hl, _⟩ | ⟨_, _, hls⟩
  · obtain ⟨hbs, hclean, _⟩ := splitLines_spec bs
    rw [hls] at hbs hclean
    rw [crlf_append, List.append_assoc] at hbs
    have hbody : HasBody bs (crlf hd).length (headerFields lengthField 0 hs) _ :=
      ⟨hd, hs, hbs, (List.forall_mem_append.mp hclean).1, hhd, rfl, rfl⟩
    have hstop := (hbody.stop m).1
    rw [h] at hstop
    cases hstop
    exact .inr ⟨_, _, _, hbody, rfl⟩
  · have hf : foldLines connRule (.requestLine, 0) (splitLines bs).1 =
        ((.requestLine, 0), some (.badRequest, ms)) := by
      rw [hls, connRule, fold_invalid hl]
    have hstop := (hrun.decided hf).1
    rw [h] at hstop
    cases hstop
    exact .inl rfl
  · have hexit := hrun.undecided (fold_undecided hls)
    rw [h] at hexit
    cases ht : (splitLines bs).2 with
    | pending l held =>
      rw [ht] at hexit
      cases hexit
    | stray l rest =>
      rw [ht] at hexit
      cases hexit

theorem HasBody.unique {k' : Nat} {n' : Int} {body' : List UInt8} (h : HasBody bs k n body)
    (h' : HasBody bs k' n' body') : k = k' ∧ n = n' ∧ body = body' := by
  obtain ⟨_, _, hn, hk, _, hb⟩ := h.stop Members.blank
  obtain ⟨_, _, hn', hk', _, hb'⟩ := h'.stop Members.blank
  exact ⟨hk.symm.trans hk', hn.symm.trans hn', hb.symm.trans hb'⟩

theorem HasBody.append (h : HasBody bs k n body) (ys : List UInt8) :
    HasBody (bs ++ ys) k n (body ++ ys) := by
  obtain ⟨hd, hs, rfl, h⟩ := h
  exact ⟨hd, hs, List.append_assoc _ _ _, h⟩

/-- A part of the stream that has the whole head is a head and a body, too. -/
theorem HasBody.of_append {w v : List UInt8} (h : HasBody (w ++ v) k n body)
    (hk : k ≤ w.length) : HasBody w k n (w.drop k) := by
  obtain ⟨hd, hs, hcat, hclean, hhd, rfl, hn⟩ := h
  have htake := congrArg (List.take (crlf hd).length) hcat
  rw [List.take_append_of_le_length hk, List.take_left] at htake
  refine ⟨hd, hs, ?_, hclean, hhd, rfl, hn⟩
  conv_lhs => rw [← List.take_append_drop (crlf hd).length w]
  rw [htake]

theorem HasBody.split (h : HasBody bs k n body) :
    bs.drop k = body ∧ bs.length = k + body.length := by
  obtain ⟨hd, hs, rfl, _, _, rfl, _⟩ := h
  exact ⟨List.drop_left, List.length_append⟩

section Cuts

variable {chunks : List (List UInt8)}

theorem overtaken_iff (hb : HasBody chunks.flatten k n body) : Overtaken chunks ↔
    0 < n ∧ n ≤ body.length ∧
      ∀ u ∈ calls [] chunks, (u.2.length : Int) < k + lineRun (u.1.drop k) + n := by
  constructor
  · rintro ⟨k', n', body', hb', h⟩
    obtain ⟨rfl, rfl, rfl⟩ := hb.unique hb'
    exact h
  · intro h
    exact ⟨k, n, body, hb, h⟩

theorem overflown_iff (hb : HasBody chunks.flatten k n body) : Overflown chunks ↔
    0 < n ∧ body.length < n ∧ n + k + linesLength body < 2 ^ 31 ∧
      ∃ u ∈ calls [] chunks, 2 ^ 31 ≤ n + k + lineRun (u.1.drop k) := by
  constructor
  · rintro ⟨k', n', body', hb', h⟩
    obtain ⟨rfl, rfl, rfl⟩ := hb.unique hb'
    exact h
  · intro h
    exact ⟨k, n, body, hb, h⟩

/-- Both ways of going wrong need a body. -/
theorem agrees_of_no_body (h : ∀ k n body, HasBody chunks.flatten k n body → ¬ 0 < n) :
    ¬ Overtaken chunks ∧ ¬ Overflown chunks := by
  constructor
  · rintro ⟨k, n, body, hb, hn, _⟩
    exact h k n body hb hn
  · rintro ⟨k, n, body, hb, hn, _⟩
    exact h k n body hb hn

end Cuts

/-- The connection at the end of the head, and what it will look up. -/
structure AtHead (m : Members) (k : Nat) (h : List UInt8) (u : Nat) (q : Conn) : Prop where
  wf : q.line.Wf
  state : q.state = m
  start : q.line.startLine = k
  checked : q.line.checkedIdx = k
  front : q.line.readBuf.take k = h
  length : h.length = k
  url : m.url = some u
  string : Terminated h u
  size : q.line.readBuf.length = readBufferSize

theorem HasBody.atHead (hb : HasBody bs k n body) (hfit : bs.length ≤ readBufferSize)
    (m : Members) : ∃ m' h u, AtHead m' k h u (run handleHead ((init m).receive bs)).2 ∧
      m'.contentLength = n ∧ m'.checkState = (lengthEnd n).1 := by
  obtain ⟨_, hst, hn, hk, hstart, _⟩ := hb.stop m
  have hw : ((init m).receive bs).line.Wf := LineBuf.receive_wf (init_wf m) bs
  have hwr := run_wf handleHead_local _ hw
  have hsize := (run_size handleHead_local _ hw).2
  have hlen : ((init m).receive bs).line.readBuf.length = readBufferSize := by
    have hinit : (init m).line.readBuf.length = readBufferSize := List.length_replicate
    rw [← hinit]
    refine LineBuf.receive_size ?_
    rw [hinit]
    exact Nat.le_trans (Nat.le_of_eq (Nat.zero_add _)) hfit
  have hurl := run_url _ hw (fun h => absurd rfl h)
  have hne : (run handleHead ((init m).receive bs)).2.state.checkState ≠ .requestLine := by
    rw [hst, lengthEnd]
    split
    · exact CheckState.noConfusion
    · exact CheckState.noConfusion
  obtain ⟨u, hu, ht⟩ := hurl hne
  rw [hk] at ht
  have hle := hwr.checked_le
  have hread := hwr.read_le
  refine ⟨_, _, u, ⟨hwr, rfl, hstart, hk, rfl, ?_, hu, ht, hsize.trans hlen⟩, hn, hst⟩
  rw [List.length_take]
  omega

section AtHead

variable {h : List UInt8} {u : Nat} {q : Conn}

theorem AtHead.receive (hq : AtHead m k h u q) (c : List UInt8)
    (hfit : q.line.readIdx + c.length < readBufferSize) : AtHead m k h u (q.receive c) := by
  have hread := hq.wf.read_le
  have hle := hq.wf.checked_le
  have hck := hq.checked
  have hsize := hq.size
  refine ⟨LineBuf.receive_wf hq.wf c, hq.state, hq.start, hq.checked, ?_, hq.length, hq.url,
    hq.string, ?_⟩
  · have hkr : k ≤ q.line.readIdx := by omega
    exact (take_overwrite_of_le hread hkr).trans hq.front
  · rw [← hsize]
    exact LineBuf.receive_size (by omega)

theorem AtHead.lookup (hq : AtHead m k h u q) (fs : FileSystem) :
    (doRequest fs q).map Prod.fst = fileCode fs m h :=
  doRequest_head fs hq.state hq.url (hq.length.symm ▸ hq.front) hq.string

/-- A negative content length: the request is complete, and a NUL is put into its head, or outside
the buffer. -/
theorem AtHead.negative (hq : AtHead m k h u q) (hs : m.checkState = .content)
    (hn : m.contentLength < 0) (fs : FileSystem) (fuel : Nat) (hf : 1 ≤ fuel) :
    (finish fs (parseReadLoop fuel .lineOk q)).map Prod.fst =
      if 0 ≤ k + m.contentLength then fileCode fs m (h.set (k + m.contentLength).toNat 0)
      else none := by
  obtain ⟨fuel, rfl⟩ : ∃ j, fuel = j + 1 := ⟨fuel - 1, by omega⟩
  have hstate := hq.state
  have hsq : q.state.checkState = .content := by rw [hstate]; exact hs
  have hlen : q.state.contentLength = m.contentLength := by rw [hstate]
  have hnext : nextText .lineOk q = (.lineOk, q.line) := if_pos ⟨hsq, rfl⟩
  have hread := hq.wf.read_le
  have hle := hq.wf.checked_le
  have hck := hq.checked
  have hstart := hq.start
  have hsize := hq.size
  have hdef : readBufferSize = 2048 := rfl
  simp only [parseReadLoop, hnext]
  rw [takeText_complete hsq (by omega) (by omega), hstart, hlen]
  by_cases hin : 0 ≤ k + m.contentLength
  · rw [if_pos ⟨hin, by omega⟩, if_pos hin]
    have hfront : (q.line.readBuf.set (k + m.contentLength).toNat 0).take
        (h.set (k + m.contentLength).toNat 0).length = h.set (k + m.contentLength).toNat 0 := by
      rw [List.length_set, hq.length, List.take_set, hq.front]
    exact doRequest_head fs hstate hq.url hfront (hq.string.set _)
  · rw [if_neg fun hc => hin hc.1, if_neg hin]
    rfl

theorem AtHead.inBody (hq : AtHead m k h u q) : InBody h m [] q.line.ahead q where
  wf := hq.wf
  state := hq.state
  front := by rw [hq.length]; exact hq.front
  checked := by
    rw [hq.checked, hq.length]
    rfl
  read := by
    have hlen := LineBuf.ahead_length hq.wf
    have hle := hq.wf.checked_le
    rw [hq.length, hlen, ← hq.checked]
    omega
  ahead := rfl
  start := by rw [hq.length, hq.start]
  size := hq.size

/-- What `process_read` returns for a head without a body to wait for. -/
def bodilessCode (fs : FileSystem) (m : Members) (h : List UInt8) : Option HttpCode :=
  if m.contentLength = 0 then fileCode fs m h
  else if 0 ≤ h.length + m.contentLength then
    fileCode fs m (h.set (h.length + m.contentLength).toNat 0)
  else none

theorem fileCode_decided (fs : FileSystem) (m : Members) (h : List UInt8) :
    fileCode fs m h ≠ some .noRequest := doRequest_decided fs _

theorem bodilessCode_decided (fs : FileSystem) (m : Members) (h : List UInt8) :
    bodilessCode fs m h ≠ some .noRequest := by
  simp only [bodilessCode]
  split
  · exact fileCode_decided fs m h
  · split
    · exact fileCode_decided fs m _
    · exact nofun

theorem bodilessCode_none_iff (fs : FileSystem) (hu : m.url = some u) :
    bodilessCode fs m h = none ↔ h.length + m.contentLength < 0 := by
  have hsome : ∀ h, fileCode fs m h ≠ none := fun h => fileCode_some fs h hu
  simp only [bodilessCode]
  split
  · exact ⟨fun hnone => absurd hnone (hsome h), fun hneg => by omega⟩
  · split
    · exact ⟨fun hnone => absurd hnone (hsome _), fun hneg => by omega⟩
    · exact ⟨fun _ => by omega, fun _ => rfl⟩

/-- The call in which a head without a body to wait for ends. -/
theorem AtHead.bodiless (hq : AtHead m k h u q)
    (hs : m.checkState = (lengthEnd m.contentLength).1) (hn : m.contentLength ≤ 0)
    (fs : FileSystem) (fuel : Nat) (hf : 1 ≤ fuel) :
    (finish fs (headResult fuel (.stop (lengthEnd m.contentLength).2, q))).map Prod.fst =
      bodilessCode fs m h := by
  by_cases hzero : m.contentLength = 0
  · have hend : (lengthEnd m.contentLength).2 = .doRequest := by
      rw [hzero]
      rfl
    rw [hend, bodilessCode, if_pos hzero]
    exact hq.lookup fs
  · have hend : lengthEnd m.contentLength = (.content, .content) := if_pos hzero
    rw [hend] at hs
    rw [hend, bodilessCode, if_neg hzero, hq.length]
    exact hq.negative hs (by omega) fs fuel hf

/-- The calls from the end of the head on: the body's, if there is a body to wait for. -/
theorem AtHead.serve (hq : AtHead m k h u q)
    (hs : m.checkState = (lengthEnd m.contentLength).1) (fs : FileSystem) (ys : List (List UInt8))
    (hfit : k + (q.line.ahead ++ ys.flatten).length < readBufferSize) (fuel : Nat)
    (hf : q.line.ahead.length + 2 ≤ fuel) :
    (serveOn fs (finish fs (headResult fuel (.stop (lengthEnd m.contentLength).2, q))) ys).map
        Prod.fst =
      if 0 < m.contentLength then
        verdictCode fs m h
          (bodyVerdict k m.contentLength (([], q.line.ahead) :: calls q.line.ahead ys))
      else bodilessCode fs m h := by
  by_cases hpos : 0 < m.contentLength
  · have hend : lengthEnd m.contentLength = (.content, .content) := if_pos (by omega)
    rw [hend] at hs
    rw [hend, if_pos hpos, ← hq.length]
    rw [← hq.length] at hfit
    exact body_serve fs hq.url hq.string hs hpos ys hq.inBody hfit ⟨_, rfl⟩ fuel hf
  · have hcode := hq.bodiless hs (by omega) fs fuel (by omega)
    rw [if_neg hpos, serveOn_decided (by rw [hcode]; exact bodilessCode_decided fs m h), hcode]

end AtHead

/-! ## Both sides of the comparison -/

theorem bodyVerdict_range (k : Nat) (n : Int) (us : List (List UInt8 × List UInt8)) :
    bodyVerdict k n us = .undefined ∨ bodyVerdict k n us = .doRequest ∨
      bodyVerdict k n us = .code .noRequest := by
  induction us with
  | nil => exact .inr (.inr rfl)
  | cons u us ih =>
    simp only [bodyVerdict, bodyTest]
    by_cases h1 : 2 ^ 31 ≤ n + k + lineRun u.1
    · rw [if_pos h1]
      exact .inl rfl
    rw [if_neg h1]
    by_cases h2 : n + lineRun u.1 ≤ u.2.length
    · rw [if_pos h2]
      exact .inr (.inl rfl)
    rw [if_neg h2]
    by_cases h3 : 2 ^ 31 ≤ n + k + lineRun u.1 + linesLength (u.2.drop (lineRun u.1))
    · rw [if_pos h3]
      exact .inl rfl
    rw [if_neg h3]
    exact ih

/-- Different outcomes on a body are different results. -/
theorem verdictCode_inj (fs : FileSystem) {h : List UInt8} {u : Nat} (hu : m.url = some u)
    (us vs : List (List UInt8 × List UInt8)) :
    verdictCode fs m h (bodyVerdict k n us) = verdictCode fs m h (bodyVerdict k n vs) ↔
      bodyVerdict k n us = bodyVerdict k n vs := by
  have h1 : fileCode fs m h ≠ none := fileCode_some fs h hu
  have h2 : fileCode fs m h ≠ some .noRequest := fileCode_decided fs m h
  refine ⟨fun heq => ?_, fun heq => congrArg _ heq⟩
  rcases bodyVerdict_range k n us with hu | hu | hu
  · rcases bodyVerdict_range k n vs with hv | hv | hv
    · rw [hu, hv]
    · rw [hu, hv] at heq
      exact absurd heq.symm h1
    · rw [hu, hv] at heq
      cases heq
  · rcases bodyVerdict_range k n vs with hv | hv | hv
    · rw [hu, hv] at heq
      exact absurd heq h1
    · rw [hu, hv]
    · rw [hu, hv] at heq
      exact absurd heq h2
  · rcases bodyVerdict_range k n vs with hv | hv | hv
    · rw [hu, hv] at heq
      cases heq
    · rw [hu, hv] at heq
      exact absurd heq.symm h2
    · rw [hu, hv]

/-- The calls on the stream are calls on the head, the call in which it ends, and calls on the
body. -/
theorem calls_split (xs ys : List (List UInt8)) (c : List UInt8) :
    calls [] (xs ++ c :: ys) =
      calls [] xs ++ (xs.flatten, xs.flatten ++ c) :: calls (xs.flatten ++ c) ys := by
  rw [calls_append, List.nil_append]
  rfl

theorem lineRun_drop_of_le {w : List UInt8} (hw : w.length ≤ k) : lineRun (w.drop k) = 0 := by
  rw [List.drop_of_length_le hw]
  rfl

theorem calls_head_length {xs : List (List UInt8)} (hx : xs.flatten.length ≤ k)
    {u : List UInt8 × List UInt8} (hu : u ∈ calls [] xs) : u.1.length ≤ k ∧ u.2.length ≤ k := by
  obtain ⟨⟨d, hd⟩, _, e, he⟩ := mem_calls hu
  rw [List.nil_append] at he
  have h1 := congrArg List.length hd
  have h2 := congrArg List.length he
  rw [List.length_append] at h1 h2
  omega

theorem calls_body_length {w : List UInt8} {ys : List (List UInt8)} (hk : k ≤ w.length)
    {u : List UInt8 × List UInt8} (hu : u ∈ calls w ys) : k ≤ u.2.length := by
  obtain ⟨⟨d, hd⟩, ⟨e, he⟩, _⟩ := mem_calls hu
  have h1 := congrArg List.length hd
  have h2 := congrArg List.length he
  rw [List.length_append] at h1 h2
  omega

/-- No call finds the whole body while the scanner is behind: a matter of the calls on the body. -/
theorem calls_behind_iff (xs ys : List (List UInt8)) (c : List UInt8)
    (hx : xs.flatten.length ≤ k) (hk : k ≤ (xs.flatten ++ c).length) (hn : 0 < n) :
    (∀ u ∈ calls [] (xs ++ c :: ys), (u.2.length : Int) < k + lineRun (u.1.drop k) + n) ↔
      ∀ u ∈ ([], (xs.flatten ++ c).drop k) :: calls ((xs.flatten ++ c).drop k) ys,
        (u.2.length : Int) < lineRun u.1 + n := by
  rw [calls_split, calls_drop hk]
  constructor
  · intro h
    rw [List.forall_mem_append, List.forall_mem_cons] at h
    refine List.forall_mem_cons.mpr ⟨?_, ?_⟩
    · have h0 := h.2.1
      rw [lineRun_drop_of_le hx] at h0
      show (((xs.flatten ++ c).drop k).length : Int) < (0 : Nat) + n
      rw [List.length_drop]
      have h0 : ((xs.flatten ++ c).length : Int) < k + (0 : Nat) + n := h0
      omega
    · intro v hv
      obtain ⟨u, hu, rfl⟩ := List.mem_map.mp hv
      have h0 := h.2.2 u hu
      have hku := calls_body_length hk hu
      show ((u.2.drop k).length : Int) < lineRun (u.1.drop k) + n
      rw [List.length_drop]
      omega
  · intro h
    rw [List.forall_mem_cons] at h
    refine List.forall_mem_append.mpr ⟨?_, List.forall_mem_cons.mpr ⟨?_, ?_⟩⟩
    · intro u hu
      have h0 := calls_head_length hx hu
      omega
    · have h0 : (((xs.flatten ++ c).drop k).length : Int) < (0 : Nat) + n := h.1
      rw [List.length_drop] at h0
      show ((xs.flatten ++ c).length : Int) < k + lineRun (xs.flatten.drop k) + n
      rw [lineRun_drop_of_le hx]
      omega
    · intro u hu
      have h0 := h.2 (u.1.drop k, u.2.drop k) (List.mem_map_of_mem hu)
      have hku := calls_body_length hk hu
      simp only [List.length_drop] at h0
      omega

/-- Some call's sum overflows: so does that of a call on the body. -/
theorem calls_overflow_iff (xs ys : List (List UInt8)) (c : List UInt8)
    (hx : xs.flatten.length ≤ k) (hk : k ≤ (xs.flatten ++ c).length) (hsmall : n + k < 2 ^ 31) :
    (∃ u ∈ calls [] (xs ++ c :: ys), 2 ^ 31 ≤ n + k + lineRun (u.1.drop k)) ↔
      ∃ u ∈ ([], (xs.flatten ++ c).drop k) :: calls ((xs.flatten ++ c).drop k) ys,
        2 ^ 31 ≤ n + k + lineRun u.1 := by
  rw [calls_split, calls_drop hk]
  constructor
  · rintro ⟨u, hu, hover⟩
    rcases List.mem_append.mp hu with hu | hu
    · rw [lineRun_drop_of_le (calls_head_length hx hu).1] at hover
      omega
    · rcases List.mem_cons.mp hu with rfl | hu
      · have h0 : 2 ^ 31 ≤ n + k + lineRun (xs.flatten.drop k) := hover
        rw [lineRun_drop_of_le hx] at h0
        omega
      · exact ⟨_, List.mem_cons_of_mem _ (List.mem_map_of_mem hu), hover⟩
  · rintro ⟨v, hv, hover⟩
    rcases List.mem_cons.mp hv with rfl | hv
    · have h0 : 2 ^ 31 ≤ n + k + ((0 : Nat) : Int) := hover
      omega
    · obtain ⟨u, hu, rfl⟩ := List.mem_map.mp hv
      exact ⟨u, List.mem_append_right _ (List.mem_cons_of_mem _ hu), hover⟩

theorem hasBody_undecided {p : Conn} (hp : p = (init m).receive bs) (hu : Undecided p) :
    ¬ HasBody bs k n body := by
  intro hb
  have hstop := (hb.stop m).1
  rw [← hp] at hstop
  rcases hu with h | h
  · rw [h] at hstop
    cases hstop
  · rw [h] at hstop
    cases hstop

/-- What follows an invalid request line is no body. -/
theorem not_hasBody_of_badRequest
    (hr : (run handleHead ((init m).receive bs)).1 = .stop .badRequest) (ys : List UInt8) :
    ¬ HasBody (bs ++ ys) k n body := by
  intro hb
  have hw : ((init m).receive bs).line.Wf := LineBuf.receive_wf (init_wf m) _
  have hclosed := run_receive_closed handleHead_local ys _ hw (by rw [hr]; exact nofun)
  rw [Parser.receive_receive (init_wf m), hr] at hclosed
  -- a head stops the line loop otherwise
  have hstop := (hb.stop m).1
  rw [hclosed, lengthEnd] at hstop
  split at hstop
  · cases hstop
  · cases hstop

theorem HasBody.flat {xs ys : List (List UInt8)} {c : List UInt8}
    (hb : HasBody (xs.flatten ++ c) k n body) :
    HasBody (xs ++ c :: ys).flatten k n (body ++ ys.flatten) := by
  rw [List.flatten_append, List.flatten_cons, ← List.append_assoc]
  exact hb.append ys.flatten

/-- What it is to be overtaken, read off the calls from the one in which the head ends. -/
theorem overtaken_calls {xs ys : List (List UInt8)} {c : List UInt8}
    (hb : HasBody (xs.flatten ++ c) k n body) (hx : xs.flatten.length ≤ k) (hpos : 0 < n) :
    Overtaken (xs ++ c :: ys) ↔ n ≤ (body ++ ys.flatten).length ∧
      ∀ u ∈ ([], body) :: calls body ys, (u.2.length : Int) < lineRun u.1 + n := by
  obtain ⟨hdrop, hlen⟩ := hb.split
  have hover := calls_behind_iff xs ys c hx (by omega) hpos
  rw [hdrop] at hover
  rw [overtaken_iff hb.flat, hover]
  exact and_iff_right hpos

theorem overflown_calls {xs ys : List (List UInt8)} {c : List UInt8}
    (hb : HasBody (xs.flatten ++ c) k n body) (hx : xs.flatten.length ≤ k) (hpos : 0 < n) :
    Overflown (xs ++ c :: ys) ↔ (body ++ ys.flatten).length < n ∧
      n + k + linesLength (body ++ ys.flatten) < 2 ^ 31 ∧
      ∃ u ∈ ([], body) :: calls body ys, 2 ^ 31 ≤ n + k + lineRun u.1 := by
  obtain ⟨hdrop, hlen⟩ := hb.split
  have hflow := calls_overflow_iff (n := n) xs ys c hx (by omega)
  rw [hdrop] at hflow
  rw [overflown_iff hb.flat, and_iff_right hpos]
  exact and_congr_right fun _ => and_congr_right fun hsum => hflow (by omega)

/-- The calls on a stream with a body, from the one in which the head ends. -/
theorem serve_body (fs : FileSystem) (m : Members) {xs ys : List (List UInt8)} {c : List UInt8}
    {fuel : Nat} (hb : HasBody (xs.flatten ++ c) k n body)
    (hx : xs.flatten.length ≤ k)
    (hfit : (xs.flatten ++ c ++ ys.flatten).length < readBufferSize)
    (hf : (run handleHead ((init m).receive (xs.flatten ++ c))).2.line.ahead.length + 2 ≤ fuel) :
    (serveOn fs (finish fs (headResult fuel
      (run handleHead ((init m).receive (xs.flatten ++ c))))) ys).map Prod.fst =
        (processRead fs ((init m).receive (xs.flatten ++ c ++ ys.flatten))).map Prod.fst ↔
      ¬ Overtaken (xs ++ c :: ys) ∧ ¬ Overflown (xs ++ c :: ys) := by
  have hfit' : (xs.flatten ++ c).length < readBufferSize := by
    rw [List.length_append] at hfit
    omega
  obtain ⟨hstop, _, _, _, _, hbody⟩ := hb.stop m
  obtain ⟨m', h, u, hat, hmn, hms⟩ := hb.atHead (Nat.le_of_lt hfit') m
  obtain ⟨-, hlen⟩ := hb.split
  have hw : ((init m).receive (xs.flatten ++ c)).line.Wf := LineBuf.receive_wf (init_wf m) _
  have hread : (run handleHead ((init m).receive (xs.flatten ++ c))).2.line.readIdx =
      (xs.flatten ++ c).length :=
    (run_size handleHead_local _ hw).1.trans (Nat.zero_add _)
  -- one call on everything stops where the call on the head did
  have hclosed := run_receive_closed handleHead_local ys.flatten _ hw (by rw [hstop]; exact nofun)
  rw [Parser.receive_receive (init_wf m)] at hclosed
  have hwhole : ((init m).receive (xs.flatten ++ c ++ ys.flatten)).line.Wf :=
    LineBuf.receive_wf (init_wf m) _
  obtain ⟨fuel', hf', hone⟩ := parseRead_head _ hwhole CheckState.noConfusion
  rw [processRead, hone]
  rw [hclosed] at hf' ⊢
  generalize hq : (run handleHead ((init m).receive (xs.flatten ++ c))).2 = q at *
  have hpair : run handleHead ((init m).receive (xs.flatten ++ c)) =
      (.stop (lengthEnd n).2, q) := by
    rw [← hstop, ← hq]
  have hbody' : (q.receive ys.flatten).line.ahead = body ++ ys.flatten := by
    show (q.line.receive ys.flatten).ahead = _
    rw [LineBuf.ahead_receive hat.wf, hbody]
  have hfitb : k + (body ++ ys.flatten).length < readBufferSize := by
    rw [List.length_append] at hfit ⊢
    omega
  have hat' := hat.receive ys.flatten (by rw [hread, ← List.length_append]; exact hfit)
  have hserve := hat.serve (by rw [hmn]; exact hms) fs ys (by rw [hbody]; exact hfitb) fuel hf
  have hserve' := hat'.serve (by rw [hmn]; exact hms) fs [] (by
    rw [hbody', List.flatten_nil, List.append_nil]
    exact hfitb) fuel' hf'
  rw [hmn, hbody] at hserve
  rw [hmn, hbody', serveOn_nil] at hserve'
  rw [hpair, hserve, hserve']
  by_cases hpos : 0 < n
  · rw [if_pos hpos, if_pos hpos]
    simp only [calls]
    rw [verdictCode_inj fs hat.url, bodyVerdict_eq hpos hfitb, overtaken_calls hb hx hpos,
      overflown_calls hb hx hpos]
  · rw [if_neg hpos, if_neg hpos]
    have htaken : ¬ Overtaken (xs ++ c :: ys) := fun h => hpos ((overtaken_iff hb.flat).mp h).1
    have hflown : ¬ Overflown (xs ++ c :: ys) := fun h => hpos ((overflown_iff hb.flat).mp h).1
    exact ⟨fun _ => ⟨htaken, hflown⟩, fun _ => rfl⟩

/-- In chunks or at once: the results agree, except on a body that is overtaken by the scanner. -/
theorem serve_agrees_iff (fs : FileSystem) (m : Members) (chunks : List (List UInt8))
    (hfit : chunks.flatten.length ≤ readBufferSize - 1) :
    (serve fs (init m) chunks).map Prod.fst =
        (processRead fs ((init m).receive chunks.flatten)).map Prod.fst ↔
      ¬ Overtaken chunks ∧ ¬ Overflown chunks := by
  have hdef : readBufferSize = 2048 := rfl
  have hinit : run handleHead (init m) = (.lineOpen, init m) := rfl
  have hundec : Undecided (init m) := .inl rfl
  have hwhole : ((init m).receive chunks.flatten).line.Wf := LineBuf.receive_wf (init_wf m) _
  rcases serve_head fs chunks (init m) (init_wf m) CheckState.noConfusion hundec with
    ⟨hu, hserve⟩ | ⟨xs, c, ys, r, fuel, rfl, hu, hr, hf, hserve⟩
  · obtain ⟨fuel, _, hone⟩ := parseRead_head _ hwhole CheckState.noConfusion
    have hno : processRead fs ((init m).receive chunks.flatten) =
        some (.noRequest, (run handleHead ((init m).receive chunks.flatten)).2) := by
      rw [processRead, hone, undecided_result hu]
    rw [hinit] at hserve
    rw [hserve, hno]
    exact ⟨fun _ => agrees_of_no_body fun k n body hb =>
      absurd hb (hasBody_undecided rfl hu), fun _ => rfl⟩
  · have hflat : (xs ++ c :: ys).flatten = xs.flatten ++ c ++ ys.flatten := by
      rw [List.flatten_append, List.flatten_cons, List.append_assoc]
    rw [hinit] at hserve
    rw [hserve, hflat]
    rw [hflat] at hfit
    rcases stop_cases hr with rfl | ⟨k, n, body, hb, _⟩
    · have hw : ((init m).receive (xs.flatten ++ c)).line.Wf := LineBuf.receive_wf (init_wf m) _
      have hclosed :=
        run_receive_closed handleHead_local ys.flatten _ hw (by rw [hr]; simp)
      rw [Parser.receive_receive (init_wf m), hr] at hclosed
      rw [hflat] at hwhole
      obtain ⟨fuel', _, hone⟩ := parseRead_head _ hwhole CheckState.noConfusion
      rw [processRead, hone, hclosed]
      have hpair : run handleHead ((init m).receive (xs.flatten ++ c)) =
          (.stop .badRequest, (run handleHead ((init m).receive (xs.flatten ++ c))).2) := by
        rw [← hr]
      rw [hpair]
      refine ⟨fun _ => agrees_of_no_body fun k n body hb _ => ?_, fun _ => rfl⟩
      rw [hflat] at hb
      exact not_hasBody_of_badRequest hr ys.flatten hb
    · have hx : xs.flatten.length ≤ k := by
        by_contra hgt
        -- the head would have been there before the call
        exact hasBody_undecided rfl hu (hb.of_append (by omega))
      exact serve_body fs m hb hx (by omega) hf

end Streams

/-! ## A body in two chunks -/

/-- No path exists. -/
def noFiles : FileSystem := { stat := fun _ => none, mmap := fun _ => 0 }

/-- `GET / HTTP/1.1`, `Content-Length: 5` and the empty line. -/
def headOfFive : List UInt8 :=
  rootRequest ++ [cr, lf] ++ contentLengthText ++ [32, 53, cr, lf, cr, lf]

/-- The head, and the body in one chunk: the file is looked up, as in one call. -/
theorem agrees_body_in_one : ¬ Overtaken [headOfFive, [97, 98, 99, 100, 101]] ∧
    ¬ Overflown [headOfFive, [97, 98, 99, 100, 101]] :=
  (serve_agrees_iff noFiles Members.blank [headOfFive, [97, 98, 99, 100, 101]] (by decide)).mp
    (by decide +kernel)

/-- Two bytes of the body come with the head and three later: no result, where one call has one. -/
theorem disagrees_body_in_two : ¬ ∀ (fs : FileSystem) (m : Members) (chunks : List (List UInt8)),
    chunks.flatten.length ≤ readBufferSize - 1 →
    (serve fs (init m) chunks).map Prod.fst =
      (processRead fs ((init m).receive chunks.flatten)).map Prod.fst := by
  intro h
  have heq := h noFiles Members.blank [headOfFive ++ [97, 98], [99, 100, 101]] (by decide)
  have hchunks : (serve noFiles (init Members.blank)
      [headOfFive ++ [97, 98], [99, 100, 101]]).map Prod.fst = some .noRequest := by
    decide +kernel
  have hwhole : (processRead noFiles ((init Members.blank).receive
      [headOfFive ++ [97, 98], [99, 100, 101]].flatten)).map Prod.fst = some .noResource := by
    decide +kernel
  rw [hchunks, hwhole] at heq
  exact absurd heq (by decide)

end Unpvol1.HttpConn
