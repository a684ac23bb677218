import Unpvol1.Lib.Numeral
import Unpvol1.Lib.Substring

/-!
# Springsnail.Config

The configuration file of the springsnail proxy, as the loop of `main.cpp` reads it: line by line in
the buffer, with a NUL written over each newline and each end tag, and one scratch `host` for every
entry. Options, `open`, `fstat` and `read` are left out.

* `configLine` — one line in the buffer; `configLoop`, `parseConfig` — the loop and the test behind
  it.
* `textLine` — the same on the text of a line; `configLoop_lines` — the loop is its fold over the
  lines.
* `Config`, `render` — a configuration and its file; `textLines_render` — what the fold makes of it.
* `parseConfig_render` — the logical hosts come back, the listen host does not.
-/

namespace Unpvol1
namespace Springsnail

/-- `m_hostname` is a `char[1024]`. -/
def hostnameSize : Nat := 1024

/-- `host` of `mgr.h`. -/
structure Host where
  hostname : List UInt8
  port : Int
  conncnt : Int
  deriving DecidableEq, Repr

inductive Failure where
  | parseFailed
  | overrun
  deriving DecidableEq, Repr

namespace Host

/-- `memset( tmp_host.m_hostname, '\0', 1024 )` -/
def clear (h : Host) : Host := { h with hostname := List.replicate hostnameSize 0 }

/-- `memcpy( tmp_host.m_hostname, s, strlen( s ) )`, which must stay within the array. -/
def copyName (h : Host) (s : List UInt8) : Except Failure Host :=
  if s.length ≤ hostnameSize then .ok { h with hostname := overwrite h.hostname 0 s }
  else .error .overrun

end Host

def openTag (word : List UInt8) : List UInt8 := 60 :: (word ++ [62])

def closeTag (word : List UInt8) : List UInt8 := 60 :: 47 :: (word ++ [62])

/-- `"logical_host"` -/
def logicalHostWord : List UInt8 := [108, 111, 103, 105, 99, 97, 108, 95, 104, 111, 115, 116]

/-- `"name"` -/
def nameWord : List UInt8 := [110, 97, 109, 101]

/-- `"port"` -/
def portWord : List UInt8 := [112, 111, 114, 116]

/-- `"conns"` -/
def connsWord : List UInt8 := [99, 111, 110, 110, 115]

/-- `"Listen"` -/
def listenText : List UInt8 := [76, 105, 115, 116, 101, 110]

/-- `':'` -/
def colon : UInt8 := 58

def newline : UInt8 := 10

def strstr (mem : List UInt8) (i : Nat) (word : List UInt8) : Option Nat :=
  (findSub word (cstr mem i)).map (i + ·)

/-- The variables of the loop, without the buffer. -/
structure Parsed where
  balanceSrv : List Host
  logicalSrv : List Host
  tmpHost : Host
  opentag : Bool
  deriving DecidableEq, Repr

/-- The text from `text` up to the end tag, which gets a NUL. -/
def element (buf : List UInt8) (text : Nat) (endTag : List UInt8) :
    Except Failure (List UInt8 × List UInt8) :=
  match strstr buf text endTag with
  | none => .error .parseFailed
  | some tmp4 => .ok (buf.set tmp4 0, cstr (buf.set tmp4 0) text)

/-- One line, which starts at `tmp` and ends in a NUL. -/
def configLine (buf : List UInt8) (tmp : Nat) (s : Parsed) : Except Failure (List UInt8 × Parsed) :=
  if (strstr buf tmp (openTag logicalHostWord)).isSome then
    if s.opentag then .error .parseFailed else .ok (buf, { s with opentag := true })
  else if (strstr buf tmp (closeTag logicalHostWord)).isSome then
    if s.opentag then
      .ok (buf, { s with
        logicalSrv := s.logicalSrv ++ [s.tmpHost], tmpHost := s.tmpHost.clear, opentag := false })
    else .error .parseFailed
  else
    match strstr buf tmp (openTag nameWord) with
    | some tmp3 =>
      match element buf (tmp3 + 6) (closeTag nameWord) with
      | .error e => .error e
      | .ok (buf, text) =>
        match s.tmpHost.copyName text with
        | .error e => .error e
        | .ok h => .ok (buf, { s with tmpHost := h })
    | none =>
      match strstr buf tmp (openTag portWord) with
      | some tmp3 =>
        match element buf (tmp3 + 6) (closeTag portWord) with
        | .error e => .error e
        | .ok (buf, text) => .ok (buf, { s with tmpHost := { s.tmpHost with port := atoi text } })
      | none =>
        match strstr buf tmp (openTag connsWord) with
        | some tmp3 =>
          match element buf (tmp3 + 7) (closeTag connsWord) with
          | .error e => .error e
          | .ok (buf, text) =>
            .ok (buf, { s with tmpHost := { s.tmpHost with conncnt := atoi text } })
        | none =>
          match strstr buf tmp listenText with
          | none => .ok (buf, s)
          | some tmp3 =>
            match strstr buf (tmp3 + 6) [colon] with
            | none => .error .parseFailed
            | some tmp4 =>
              let buf := buf.set tmp4 0
              let h := { s.tmpHost with port := atoi (cstr buf (tmp4 + 1)) }
              -- `tmp3`, where `Listen` stands, and not `tmp_hostname` behind it
              match h.copyName (cstr buf tmp3) with
              | .error e => .error e
              | .ok h => .ok (buf, { s with balanceSrv := s.balanceSrv ++ [h], tmpHost := h.clear })

/-- The `while` loop; the counter is for its passes. -/
def configLoop : Nat → List UInt8 → Nat → Parsed → Except Failure Parsed
  | 0, _, _, s => .ok s
  | fuel + 1, buf, tmp, s =>
    match strpbrk buf tmp [newline] with
    | none => .ok s
    | some tmp2 =>
      match configLine (buf.set tmp2 0) tmp s with
      | .error e => .error e
      | .ok (buf, s) => configLoop fuel buf (tmp2 + 1) s

/-- Before the loop; `m_port` and `m_conncnt` of `tmp_host` are not initialised. -/
def Parsed.start (tmpHost : Host) : Parsed :=
  { balanceSrv := [], logicalSrv := [], tmpHost := tmpHost.clear, opentag := false }

/-- `balance_srv` and `logical_srv`, from the bytes of the file. -/
def parseConfig (tmpHost : Host) (file : List UInt8) : Except Failure (List Host × List Host) :=
  match configLoop (file.length + 1) (file ++ [0]) 0 (.start tmpHost) with
  | .error e => .error e
  | .ok s =>
    if s.balanceSrv = [] ∨ s.logicalSrv = [] then .error .parseFailed
    else .ok (s.balanceSrv, s.logicalSrv)

/-! ## A line by its text -/

def elementText (t : List UInt8) (endTag : List UInt8) : Except Failure (List UInt8) :=
  match findSub endTag t with
  | none => .error .parseFailed
  | some k => .ok (t.take k)

/-- `configLine`, on the text of the line. -/
def textLine (s : Parsed) (t : List UInt8) : Except Failure Parsed :=
  if (findSub (openTag logicalHostWord) t).isSome then
    if s.opentag then .error .parseFailed else .ok { s with opentag := true }
  else if (findSub (closeTag logicalHostWord) t).isSome then
    if s.opentag then
      .ok { s with
        logicalSrv := s.logicalSrv ++ [s.tmpHost], tmpHost := s.tmpHost.clear, opentag := false }
    else .error .parseFailed
  else
    match findSub (openTag nameWord) t with
    | some k =>
      match elementText (t.drop (k + 6)) (closeTag nameWord) with
      | .error e => .error e
      | .ok text =>
        match s.tmpHost.copyName text with
        | .error e => .error e
        | .ok h => .ok { s with tmpHost := h }
    | none =>
      match findSub (openTag portWord) t with
      | some k =>
        match elementText (t.drop (k + 6)) (closeTag portWord) with
        | .error e => .error e
        | .ok text => .ok { s with tmpHost := { s.tmpHost with port := atoi text } }
      | none =>
        match findSub (openTag connsWord) t with
        | some k =>
          match elementText (t.drop (k + 7)) (closeTag connsWord) with
          | .error e => .error e
          | .ok text => .ok { s with tmpHost := { s.tmpHost with conncnt := atoi text } }
        | none =>
          match findSub listenText t with
          | none => .ok s
          | some k =>
            match findSub [colon] (t.drop (k + 6)) with
            | none => .error .parseFailed
            | some j =>
              let h := { s.tmpHost with port := atoi (t.drop (k + 6 + j + 1)) }
              match h.copyName ((t.drop k).take (6 + j)) with
              | .error e => .error e
              | .ok h => .ok { s with balanceSrv := s.balanceSrv ++ [h], tmpHost := h.clear }

section Text

variable {buf t word : List UInt8} {tmp k : Nat} {c : UInt8}

theorem strstr_text (h : cstr buf tmp = t) (word : List UInt8) :
    strstr buf tmp word = (findSub word t).map (tmp + ·) := by
  rw [strstr, h]

theorem strstr_behind (h : cstr buf tmp = t) (hk : k ≤ t.length) (word : List UInt8) :
    strstr buf (tmp + k) word = (findSub word (t.drop k)).map (tmp + k + ·) := by
  rw [strstr, cstr_add buf tmp (h.symm ▸ hk), h]

/-- An element of the text: no end tag in either, or the same text, with a NUL set in the line. -/
theorem element_cases (h : cstr buf tmp = t) (hk : k ≤ t.length) (word : List UInt8) :
    (element buf (tmp + k) (closeTag word) = .error .parseFailed ∧
      elementText (t.drop k) (closeTag word) = .error .parseFailed) ∨
    ∃ text i, element buf (tmp + k) (closeTag word) = .ok (buf.set i 0, text) ∧
      elementText (t.drop k) (closeTag word) = .ok text ∧ i < tmp + t.length := by
  unfold element elementText
  rw [strstr_behind h hk]
  cases hf : findSub (closeTag word) (t.drop k) with
  | none => exact .inl ⟨rfl, rfl⟩
  | some j =>
    have hbound := findSub_bound hf
    rw [List.length_drop, closeTag, List.length_cons] at hbound
    have hdrop : cstr buf (tmp + k) = t.drop k := by
      rw [cstr_add buf tmp (h.symm ▸ hk), h]
    refine .inr ⟨(t.drop k).take j, tmp + k + j, ?_, rfl, by omega⟩
    show Except.ok (buf.set (tmp + k + j) 0, cstr (buf.set (tmp + k + j) 0) (tmp + k)) = _
    rw [cstr_set buf (tmp + k) (by rw [hdrop, List.length_drop]; omega), hdrop]

/-- A NUL set on the colon of a `Listen` line: the text from `Listen` up to there, and the text
behind. -/
theorem listen_texts (h : cstr buf tmp = t) {j : Nat} (hj : k + 6 + j + 1 ≤ t.length) :
    cstr (buf.set (tmp + (k + 6) + j) 0) (tmp + k) = (t.drop k).take (6 + j) ∧
      cstr (buf.set (tmp + (k + 6) + j) 0) (tmp + (k + 6) + j + 1) = t.drop (k + 6 + j + 1) := by
  constructor
  · have hdrop : cstr buf (tmp + k) = t.drop k := by
      rw [cstr_add buf tmp (h.symm ▸ by omega), h]
    have hi : tmp + (k + 6) + j = tmp + k + (6 + j) := by omega
    rw [hi, cstr_set buf (tmp + k) (by rw [hdrop, List.length_drop]; omega), hdrop]
  · have hi : tmp + (k + 6) + j + 1 = tmp + (k + 6 + j + 1) := by omega
    rw [cstr, List.drop_set_of_lt (by omega), hi]
    show cstr buf (tmp + (k + 6 + j + 1)) = _
    rw [cstr_add buf tmp (h.symm ▸ by omega), h]

/-- What a line in the buffer does is what its text does, and it writes within the line only. -/
theorem configLine_text (h : cstr buf tmp = t) (s : Parsed) :
    (∃ e, configLine buf tmp s = .error e ∧ textLine s t = .error e) ∨
    ∃ buf' s', configLine buf tmp s = .ok (buf', s') ∧ textLine s t = .ok s' ∧
      buf'.drop (tmp + t.length) = buf.drop (tmp + t.length) := by
  unfold configLine textLine
  simp only [strstr_text h, Option.isSome_map]
  split
  · split
    · exact .inl ⟨_, rfl, rfl⟩
    · exact .inr ⟨_, _, rfl, rfl, rfl⟩
  split
  · split
    · exact .inr ⟨_, _, rfl, rfl, rfl⟩
    · exact .inl ⟨_, rfl, rfl⟩
  cases hname : findSub (openTag nameWord) t with
  | some k =>
    have hk : k + 6 ≤ t.length := findSub_bound hname
    simp only [Option.map_some, Nat.add_assoc tmp k 6]
    rcases element_cases h hk nameWord with ⟨he, ht⟩ | ⟨text, i, he, ht, hi⟩
    · simp only [he, ht]
      exact .inl ⟨_, rfl, rfl⟩
    · simp only [he, ht]
      cases hcopy : s.tmpHost.copyName text with
      | error e => exact .inl ⟨e, rfl, rfl⟩
      | ok host => exact .inr ⟨_, _, rfl, rfl, List.drop_set_of_lt hi⟩
  | none =>
  simp only [Option.map_none]
  cases hport : findSub (openTag portWord) t with
  | some k =>
    have hk : k + 6 ≤ t.length := findSub_bound hport
    simp only [Option.map_some, Nat.add_assoc tmp k 6]
    rcases element_cases h hk portWord with ⟨he, ht⟩ | ⟨text, i, he, ht, hi⟩
    · simp only [he, ht]
      exact .inl ⟨_, rfl, rfl⟩
    · simp only [he, ht]
      exact .inr ⟨_, _, rfl, rfl, List.drop_set_of_lt hi⟩
  | none =>
  simp only [Option.map_none]
  cases hconns : findSub (openTag connsWord) t with
  | some k =>
    have hk : k + 7 ≤ t.length := findSub_bound hconns
    simp only [Option.map_some, Nat.add_assoc tmp k 7]
    rcases element_cases h hk connsWord with ⟨he, ht⟩ | ⟨text, i, he, ht, hi⟩
    · simp only [he, ht]
      exact .inl ⟨_, rfl, rfl⟩
    · simp only [he, ht]
      exact .inr ⟨_, _, rfl, rfl, List.drop_set_of_lt hi⟩
  | none =>
  simp only [Option.map_none]
  cases hlisten : findSub listenText t with
  | none => exact .inr ⟨_, _, rfl, rfl, rfl⟩
  | some k =>
    have hk : k + 6 ≤ t.length := findSub_bound hlisten
    simp only [Option.map_some, Nat.add_assoc tmp k 6, strstr_behind h hk]
    cases hcolon : findSub [colon] (t.drop (k + 6)) with
    | none => exact .inl ⟨_, rfl, rfl⟩
    | some j =>
      have hj : j + 1 ≤ (t.drop (k + 6)).length := findSub_bound hcolon
      rw [List.length_drop] at hj
      obtain ⟨hfront, hback⟩ := listen_texts h (k := k) (j := j) (by omega)
      simp only [Option.map_some, hfront, hback]
      cases hcopy : Host.copyName { s.tmpHost with port := atoi (t.drop (k + 6 + j + 1)) }
          ((t.drop k).take (6 + j)) with
      | error e => exact .inl ⟨e, rfl, rfl⟩
      | ok host => exact .inr ⟨_, _, rfl, rfl, List.drop_set_of_lt (by omega)⟩

end Text

/-! ## The lines -/

section Lines

variable {buf rest : List UInt8} {tmp : Nat} {ls : List (List UInt8)}

def textLines (s : Parsed) (ls : List (List UInt8)) : Except Failure Parsed := ls.foldlM textLine s

/-- A line without NULs and newlines, and its newline. -/
theorem nextLine {t more : List UInt8} (ht : ∀ b ∈ t, b ≠ 0 ∧ b ≠ newline)
    (hbuf : buf.drop tmp = t ++ newline :: more) :
    strpbrk buf tmp [newline] = some (tmp + t.length) ∧
      cstr (buf.set (tmp + t.length) 0) tmp = t := by
  have hcstr : cstr buf tmp = t ++ newline :: cut more := by
    rw [cstr, hbuf, cut, List.takeWhile_append_of_pos]
    · rfl
    · intro b hb
      exact decide_eq_true (ht b hb).1
  have hsplit : splitAt [newline] (t ++ newline :: cut more) = some (t, cut more) := by
    refine splitAt_append ?_ List.mem_cons_self
    intro b hb hmem
    exact (ht b hb).2 (List.mem_singleton.mp hmem)
  constructor
  · rw [strpbrk_eq, hcstr, hsplit]
    rfl
  · rw [cstr_set buf tmp (by rw [hcstr, List.length_append]; omega), hcstr, List.take_left]

/-- By induction on the lines, with passes enough: the loop is a fold. What stands behind the last
newline is not read. -/
theorem configLoop_lines (hls : ∀ t ∈ ls, ∀ b ∈ t, b ≠ 0 ∧ b ≠ newline) {last : List UInt8}
    (hlast : ∀ b ∈ last, b ≠ 0 ∧ b ≠ newline)
    (hbuf : buf.drop tmp = ls.flatMap (· ++ [newline]) ++ (last ++ 0 :: rest)) (s : Parsed)
    (fuel : Nat) (hfuel : ls.length < fuel) : configLoop fuel buf tmp s = textLines s ls := by
  induction ls generalizing buf tmp s fuel with
  | nil =>
    obtain ⟨n, rfl⟩ : ∃ n, fuel = n + 1 := ⟨fuel - 1, by omega⟩
    have hcstr : cstr buf tmp = last := by
      rw [List.flatMap_nil, List.nil_append] at hbuf
      rw [cstr, hbuf, cut_append_nul, cut_of_not_mem fun h => (hlast 0 h).1 rfl]
    have hend : strpbrk buf tmp [newline] = none := by
      rw [strpbrk_eq, hcstr, splitAt_eq_none.mpr]
      · rfl
      · intro b hb hmem
        exact (hlast b hb).2 (List.mem_singleton.mp hmem)
    simp only [configLoop, hend]
    rfl
  | cons t ls ih =>
    obtain ⟨n, rfl⟩ : ∃ n, fuel = n + 1 := ⟨fuel - 1, by omega⟩
    obtain ⟨ht, hls⟩ := List.forall_mem_cons.mp hls
    rw [List.flatMap_cons, List.append_assoc, List.append_assoc] at hbuf
    obtain ⟨hline, htext⟩ := nextLine ht hbuf
    simp only [configLoop, hline, textLines, List.foldlM_cons]
    rcases configLine_text htext s with ⟨e, he, htl⟩ | ⟨buf', s', he, htl, hdrop⟩
    · rw [he, htl]
      rfl
    · rw [he, htl]
      refine ih hls ?_ s' n (by rw [List.length_cons] at hfuel; omega)
      have hnext : tmp + t.length + 1 = tmp + (t ++ [newline]).length := by
        rw [List.length_append, List.length_singleton, Nat.add_assoc]
      calc buf'.drop (tmp + t.length + 1)
          = (buf'.drop (tmp + t.length)).drop 1 := (List.drop_drop).symm
        _ = (buf.set (tmp + t.length) 0).drop (tmp + t.length + 1) := by rw [hdrop, List.drop_drop]
        _ = (buf.drop tmp).drop (t ++ [newline]).length := by
          rw [List.drop_set_of_lt (Nat.lt_add_one _), hnext, List.drop_drop]
        _ = ls.flatMap (· ++ [newline]) ++ (last ++ 0 :: rest) := by
          rw [hbuf, ← List.append_assoc, List.drop_left']
          rfl

end Lines

/-! ## A configuration and its file -/

/-- A name as it can stand in the file and in `m_hostname`. -/
def NameText (n : List UInt8) : Prop :=
  n ≠ [] ∧ n.length < hostnameSize ∧
    ∀ b ∈ n, b ≠ 0 ∧ b ≠ newline ∧ b ≠ 60 ∧ b ≠ 62 ∧ b ≠ colon

instance (n : List UInt8) : Decidable (NameText n) :=
  have : Decidable (∀ b ∈ n, b ≠ 0 ∧ b ≠ newline ∧ b ≠ 60 ∧ b ≠ 62 ∧ b ≠ colon) :=
    List.decidableBAll _ n
  instDecidableAnd

structure LogicalHost where
  name : List UInt8
  port : Nat
  conns : Nat
  named : NameText name
  port_lt : port < 2 ^ 31
  conns_lt : conns < 2 ^ 31

structure Config where
  listenHost : List UInt8
  listenPort : Nat
  hosts : List LogicalHost
  named : NameText listenHost
  port_lt : listenPort < 2 ^ 31

def elementLine (word text : List UInt8) : List UInt8 :=
  [32, 32] ++ (openTag word ++ (text ++ closeTag word))

def LogicalHost.lines (h : LogicalHost) : List (List UInt8) :=
  [openTag logicalHostWord, elementLine nameWord h.name, elementLine portWord (decimalText h.port),
    elementLine connsWord (decimalText h.conns), closeTag logicalHostWord]

def listenLine (host : List UInt8) (port : Nat) : List UInt8 :=
  listenText ++ (32 :: (host ++ colon :: decimalText port))

/-- The file, in the layout of `config.xml`. -/
def Config.render (c : Config) : List UInt8 :=
  (listenLine c.listenHost c.listenPort :: [] :: c.hosts.flatMap LogicalHost.lines).flatMap
    (· ++ [newline])

section Tags

variable {word text n : List UInt8}

theorem no_match {a b : UInt8} {l r : List UInt8} (h : a ≠ b) : ¬ a :: l <+: b :: r := by
  intro hp
  exact h (List.cons_prefix_cons.mp hp).1

/-- A tag that is neither of an element's two is not in its line. -/
theorem find_other (hword : 60 ∉ word) (htext : 60 ∉ text)
    (hopen : ¬ n <+: word ++ [62] ++ (text ++ closeTag word))
    (hclose : ¬ n <+: 47 :: (word ++ [62])) :
    findSub (60 :: n) (elementLine word text) = none := by
  have hmid : 60 ∉ word ++ [62] ++ text := by
    simp only [List.mem_append, List.mem_singleton, not_or]
    exact ⟨⟨hword, by decide⟩, htext⟩
  have hend : (60 : UInt8) ∉ 47 :: (word ++ [62]) := by
    simp only [List.mem_cons, List.mem_append, not_or]
    exact ⟨by decide, hword, by decide, List.not_mem_nil⟩
  have hsecond : findSub (60 :: n) (closeTag word) = none := by
    rw [closeTag, findSub_past hclose, findSub_of_not_mem hend, Option.map_none]
  have hfirst : findSub (60 :: n) (openTag word ++ (text ++ closeTag word)) = none := by
    rw [openTag, List.cons_append, findSub_past hopen, ← List.append_assoc, findSub_skip hmid,
      hsecond, Option.map_none, Option.map_none]
  rw [elementLine, findSub_skip (by decide), hfirst, Option.map_none]

theorem find_open (word text : List UInt8) :
    findSub (openTag word) (elementLine word text) = some 2 := by
  have hhere := findSub_here (List.prefix_append (openTag word) (text ++ closeTag word))
  have hskip : findSub (openTag word) (elementLine word text) =
      (findSub (openTag word) (openTag word ++ (text ++ closeTag word))).map (2 + ·) :=
    findSub_skip (a := [32, 32]) (by decide) _
  rw [hskip, hhere, Option.map_some, Nat.add_zero]

theorem elementText_line (htext : 60 ∉ text) (word : List UInt8) :
    elementText ((elementLine word text).drop (2 + (word.length + 2))) (closeTag word) =
      .ok text := by
  have hlen : ([32, 32] ++ openTag word).length = 2 + (word.length + 2) := by
    simp only [openTag, List.length_append, List.length_cons, List.length_nil]
  have hdrop : (elementLine word text).drop (2 + (word.length + 2)) = text ++ closeTag word := by
    rw [elementLine, ← List.append_assoc, ← hlen, List.drop_left]
  have hfind : findSub (closeTag word) (text ++ closeTag word) = some text.length := by
    have hhere := findSub_here (List.prefix_refl (closeTag word))
    rw [closeTag] at hhere ⊢
    rw [findSub_skip htext, hhere, Option.map_some, Nat.add_zero]
  simp only [elementText, hdrop, hfind, List.take_left]

/-- An element's line is neither the start nor the end of a logical host. -/
theorem find_no_host {a : UInt8} (ha : a ≠ 108) (ha' : a ≠ 47) (hword : 60 ∉ a :: word)
    (htext : 60 ∉ text) :
    findSub (openTag logicalHostWord) (elementLine (a :: word) text) = none ∧
      findSub (closeTag logicalHostWord) (elementLine (a :: word) text) = none := by
  refine ⟨find_other hword htext (no_match ha.symm) (no_match (by decide)), ?_⟩
  refine find_other hword htext (no_match ha'.symm) fun h => ?_
  exact no_match ha.symm ((List.prefix_cons_inj 47).mp h)

end Tags

section Blocks

variable {s : Parsed}

theorem textLine_begin (ho : s.opentag = false) :
    textLine s (openTag logicalHostWord) = .ok { s with opentag := true } := by
  have hfind : findSub (openTag logicalHostWord) (openTag logicalHostWord) = some 0 :=
    findSub_here (List.prefix_refl _)
  simp only [textLine, hfind, Option.isSome_some, if_true, ho, Bool.false_eq_true, if_false]

theorem textLine_end (ho : s.opentag = true) :
    textLine s (closeTag logicalHostWord) = .ok { s with
      logicalSrv := s.logicalSrv ++ [s.tmpHost], tmpHost := s.tmpHost.clear,
      opentag := false } := by
  have hopen : findSub (openTag logicalHostWord) (closeTag logicalHostWord) = none := by decide
  have hfind : findSub (closeTag logicalHostWord) (closeTag logicalHostWord) = some 0 :=
    findSub_here (List.prefix_refl _)
  simp only [textLine, hopen, hfind, Option.isSome_none, Option.isSome_some, Bool.false_eq_true,
    if_true, if_false, ho]

theorem textLine_name {text : List UInt8} (htext : 60 ∉ text) :
    textLine s (elementLine nameWord text) =
      match s.tmpHost.copyName text with
      | .error e => .error e
      | .ok h => .ok { s with tmpHost := h } := by
  obtain ⟨h1, h2⟩ : findSub (openTag logicalHostWord) (elementLine nameWord text) = none ∧
      findSub (closeTag logicalHostWord) (elementLine nameWord text) = none :=
    find_no_host (by decide) (by decide) (by decide) htext
  have htake : elementText ((elementLine nameWord text).drop (2 + 6)) (closeTag nameWord) =
      .ok text := elementText_line htext nameWord
  simp only [textLine, h1, h2, find_open, htake, Option.isSome_none, Bool.false_eq_true, if_false]

theorem textLine_port {text : List UInt8} (htext : 60 ∉ text) :
    textLine s (elementLine portWord text) =
      .ok { s with tmpHost := { s.tmpHost with port := atoi text } } := by
  obtain ⟨h1, h2⟩ : findSub (openTag logicalHostWord) (elementLine portWord text) = none ∧
      findSub (closeTag logicalHostWord) (elementLine portWord text) = none :=
    find_no_host (by decide) (by decide) (by decide) htext
  have h3 : findSub (openTag nameWord) (elementLine portWord text) = none :=
    find_other (by decide) htext (no_match (by decide)) (no_match (by decide))
  have htake : elementText ((elementLine portWord text).drop (2 + 6)) (closeTag portWord) =
      .ok text := elementText_line htext portWord
  simp only [textLine, h1, h2, h3, find_open, htake, Option.isSome_none, Bool.false_eq_true,
    if_false]

theorem textLine_conns {text : List UInt8} (htext : 60 ∉ text) :
    textLine s (elementLine connsWord text) =
      .ok { s with tmpHost := { s.tmpHost with conncnt := atoi text } } := by
  obtain ⟨h1, h2⟩ : findSub (openTag logicalHostWord) (elementLine connsWord text) = none ∧
      findSub (closeTag logicalHostWord) (elementLine connsWord text) = none :=
    find_no_host (by decide) (by decide) (by decide) htext
  have h3 : findSub (openTag nameWord) (elementLine connsWord text) = none :=
    find_other (by decide) htext (no_match (by decide)) (no_match (by decide))
  have h4 : findSub (openTag portWord) (elementLine connsWord text) = none :=
    find_other (by decide) htext (no_match (by decide)) (no_match (by decide))
  have htake : elementText ((elementLine connsWord text).drop (2 + 7)) (closeTag connsWord) =
      .ok text := elementText_line htext connsWord
  simp only [textLine, h1, h2, h3, h4, find_open, htake, Option.isSome_none, Bool.false_eq_true,
    if_false]

theorem not_mem_decimalText (n : Nat) : 60 ∉ decimalText n := by
  intro h
  exact absurd (isDigit_of_mem_decimalText h) (by decide)

/-- The `host` with a name in an array of NULs. -/
def hostOf (name : List UInt8) (port conncnt : Int) : Host :=
  { hostname := overwrite (List.replicate hostnameSize 0) 0 name, port := port, conncnt := conncnt }

/-- One logical host. -/
theorem textLines_host (h : LogicalHost) (ho : s.opentag = false)
    (hclear : s.tmpHost.clear = s.tmpHost) :
    textLines s h.lines = .ok { s with
      logicalSrv := s.logicalSrv ++ [hostOf h.name h.port h.conns]
      tmpHost := (hostOf h.name h.port h.conns).clear } := by
  obtain ⟨hne, hshort, hplain⟩ := h.named
  have hname : 60 ∉ h.name := fun hmem => (hplain 60 hmem).2.2.1 rfl
  have hzero : s.tmpHost.hostname = List.replicate hostnameSize 0 :=
    (congrArg Host.hostname hclear).symm
  have hcopy : s.tmpHost.copyName h.name =
      .ok { s.tmpHost with hostname := overwrite (List.replicate hostnameSize 0) 0 h.name } := by
    rw [Host.copyName, if_pos (Nat.le_of_lt hshort), hzero]
  have hport : atoi (decimalText h.port) = h.port := atoi_decimalText h.port_lt
  have hconns : atoi (decimalText h.conns) = h.conns := atoi_decimalText h.conns_lt
  simp only [textLines, LogicalHost.lines, List.foldlM_cons, List.foldlM_nil, bind, Except.bind,
    textLine_begin ho, textLine_name hname, hcopy, textLine_port (not_mem_decimalText _),
    textLine_conns (not_mem_decimalText _), textLine_end, hport, hconns]
  rw [ho]
  rfl

/-- By induction on the hosts: each is added behind those before it. -/
theorem textLines_hosts (hosts : List LogicalHost) (ho : s.opentag = false)
    (hclear : s.tmpHost.clear = s.tmpHost) :
    ∃ h, textLines s (hosts.flatMap LogicalHost.lines) = .ok { s with
      logicalSrv := s.logicalSrv ++ hosts.map fun h => hostOf h.name h.port h.conns
      tmpHost := h } := by
  induction hosts generalizing s with
  | nil =>
    refine ⟨s.tmpHost, ?_⟩
    simp only [List.map_nil, List.append_nil]
    rfl
  | cons h hosts ih =>
    obtain ⟨h', hrest⟩ := ih (s := { s with
      logicalSrv := s.logicalSrv ++ [hostOf h.name h.port h.conns]
      tmpHost := (hostOf h.name h.port h.conns).clear }) ho rfl
    refine ⟨h', ?_⟩
    have hone := textLines_host h ho hclear
    simp only [textLines] at hone hrest ⊢
    rw [List.flatMap_cons, List.foldlM_append, hone]
    show List.foldlM textLine _ _ = _
    rw [hrest]
    simp only [List.append_assoc, List.map_cons, List.singleton_append]

/-- The line of the listen host. The name that is copied starts at `Listen`. -/
theorem textLine_listen {host : List UInt8} {port : Nat} (hn : NameText host)
    (hp : port < 2 ^ 31) (hclear : s.tmpHost.clear = s.tmpHost) :
    textLine s (listenLine host port) =
      if (listenText ++ 32 :: host).length ≤ hostnameSize then
        .ok { s with
          balanceSrv := s.balanceSrv ++ [hostOf (listenText ++ 32 :: host) port s.tmpHost.conncnt]
          tmpHost := (hostOf [] port s.tmpHost.conncnt).clear }
      else .error .overrun := by
  obtain ⟨_, _, hplain⟩ := hn
  have htag : 60 ∉ listenLine host port := by
    simp only [listenLine, List.mem_append, List.mem_cons, not_or]
    exact ⟨by decide, by decide, fun h => (hplain 60 h).2.2.1 rfl, by decide, not_mem_decimalText _⟩
  have hcolon : colon ∉ 32 :: host := by
    intro h
    rcases List.mem_cons.mp h with h | h
    · exact absurd h (by decide)
    · exact (hplain colon h).2.2.2.2 rfl
  have hnone : ∀ w, findSub (60 :: w) (listenLine host port) = none := fun w =>
    findSub_of_not_mem htag
  have hlisten : findSub listenText (listenLine host port) = some 0 :=
    findSub_here (List.prefix_append _ _)
  have hdrop : (listenLine host port).drop (0 + 6) = 32 :: host ++ colon :: decimalText port := rfl
  have hfind : findSub [colon] ((listenLine host port).drop (0 + 6)) =
      some (32 :: host).length := by
    have hhere := findSub_here (List.prefix_append [colon] (decimalText port))
    rw [hdrop, findSub_skip hcolon]
    exact congrArg (Option.map _) hhere
  have hsplit : listenLine host port = (listenText ++ 32 :: host) ++ colon :: decimalText port := by
    rw [listenLine, List.append_assoc, List.cons_append]
  have hlen : (listenText ++ 32 :: host).length = 6 + (32 :: host).length := List.length_append
  have hfront : ((listenLine host port).drop 0).take (6 + (32 :: host).length) =
      listenText ++ 32 :: host := by
    rw [List.drop_zero, hsplit, ← hlen, List.take_left]
  have hback : (listenLine host port).drop (0 + 6 + (32 :: host).length + 1) =
      decimalText port := by
    rw [Nat.zero_add, hsplit, ← hlen, ← List.drop_drop, List.drop_left]
    rfl
  have hzero : s.tmpHost.hostname = List.replicate hostnameSize 0 :=
    (congrArg Host.hostname hclear).symm
  have hatoi : atoi (decimalText port) = port := atoi_decimalText hp
  by_cases hfit : (listenText ++ 32 :: host).length ≤ hostnameSize
  · simp only [textLine, openTag, closeTag, hnone, hlisten, hfind, hfront, hback, hatoi,
      Option.isSome_none, Bool.false_eq_true, if_false, Host.copyName, hzero, if_pos hfit]
    rfl
  · simp only [textLine, openTag, closeTag, hnone, hlisten, hfind, hfront, hback, hatoi,
      Option.isSome_none, Bool.false_eq_true, if_false, Host.copyName, if_neg hfit]

end Blocks

/-! ## The whole file -/

section File

variable {c : Config} {n : List UInt8}

def Plain (t : List UInt8) : Prop := ∀ b ∈ t, b ≠ 0 ∧ b ≠ newline

theorem NameText.plain (h : NameText n) : Plain n := fun b hb =>
  ⟨(h.2.2 b hb).1, (h.2.2 b hb).2.1⟩

theorem decimalText_plain (n : Nat) : Plain (decimalText n) := by
  intro b hb
  have hdigit := isDigit_of_mem_decimalText hb
  constructor
  · rintro rfl
    exact absurd hdigit (by decide)
  · rintro rfl
    exact absurd hdigit (by decide)

theorem Plain.append {t u : List UInt8} (ht : Plain t) (hu : Plain u) : Plain (t ++ u) :=
  List.forall_mem_append.mpr ⟨ht, hu⟩

instance (t : List UInt8) : Decidable (Plain t) :=
  List.decidableBAll _ t

theorem elementLine_plain {word text : List UInt8} (hopen : Plain (openTag word))
    (hclose : Plain (closeTag word)) (ht : Plain text) : Plain (elementLine word text) :=
  Plain.append (by decide) (hopen.append (ht.append hclose))

theorem lines_plain (c : Config) :
    ∀ t ∈ listenLine c.listenHost c.listenPort :: [] :: c.hosts.flatMap LogicalHost.lines,
      Plain t := by
  intro t ht
  rcases List.mem_cons.mp ht with rfl | ht
  · have hport : Plain (colon :: decimalText c.listenPort) :=
      Plain.append (t := [colon]) (by decide) (decimalText_plain _)
    exact Plain.append (by decide)
      (Plain.append (t := [32]) (by decide) (c.named.plain.append hport))
  rcases List.mem_cons.mp ht with rfl | ht
  · exact fun b hb => nomatch hb
  · obtain ⟨h, _, ht⟩ := List.mem_flatMap.mp ht
    simp only [LogicalHost.lines, List.mem_cons, List.not_mem_nil, or_false] at ht
    rcases ht with rfl | rfl | rfl | rfl | rfl
    · decide
    · exact elementLine_plain (by decide) (by decide) h.named.plain
    · exact elementLine_plain (by decide) (by decide) (decimalText_plain _)
    · exact elementLine_plain (by decide) (by decide) (decimalText_plain _)
    · decide

theorem length_le_lines (ls : List (List UInt8)) :
    ls.length ≤ (ls.flatMap (· ++ [newline])).length := by
  induction ls with
  | nil => exact Nat.le_refl 0
  | cons t ls ih =>
    simp only [List.flatMap_cons, List.length_append, List.length_cons, List.length_nil]
    omega

/-- The lines of a configuration, with room for the name that is copied. -/
theorem textLines_render (tmpHost : Host) (c : Config)
    (hfit : (listenText ++ 32 :: c.listenHost).length ≤ hostnameSize) :
    ∃ h, textLines (.start tmpHost)
        (listenLine c.listenHost c.listenPort :: [] :: c.hosts.flatMap LogicalHost.lines) =
      .ok { balanceSrv := [hostOf (listenText ++ 32 :: c.listenHost) c.listenPort tmpHost.conncnt]
            logicalSrv := c.hosts.map fun h => hostOf h.name h.port h.conns
            tmpHost := h
            opentag := false } := by
  have hlisten := textLine_listen (s := .start tmpHost) c.named c.port_lt rfl
  rw [if_pos hfit] at hlisten
  obtain ⟨h, hhosts⟩ := textLines_hosts c.hosts (s := { Parsed.start tmpHost with
    balanceSrv := [hostOf (listenText ++ 32 :: c.listenHost) c.listenPort tmpHost.conncnt]
    tmpHost := (hostOf [] c.listenPort tmpHost.conncnt).clear }) rfl rfl
  refine ⟨h, ?_⟩
  rw [textLines, List.foldlM_cons, hlisten]
  exact hhosts

/-- What the loop makes of a configuration's file. -/
theorem parseConfig_render (tmpHost : Host) (c : Config) :
    parseConfig tmpHost c.render =
      if (listenText ++ 32 :: c.listenHost).length ≤ hostnameSize then
        if c.hosts = [] then .error .parseFailed
        else .ok ([hostOf (listenText ++ 32 :: c.listenHost) c.listenPort tmpHost.conncnt],
          c.hosts.map fun h => hostOf h.name h.port h.conns)
      else .error .overrun := by
  have hbuf : (c.render ++ [0]).drop 0 = c.render ++ ([] ++ 0 :: []) := List.drop_zero
  have hlines := configLoop_lines (lines_plain c) (fun b hb => absurd hb List.not_mem_nil) hbuf
    (.start tmpHost) (c.render.length + 1) (Nat.lt_succ_of_le (length_le_lines _))
  rw [parseConfig, hlines]
  by_cases hfit : (listenText ++ 32 :: c.listenHost).length ≤ hostnameSize
  · obtain ⟨h, hok⟩ := textLines_render tmpHost c hfit
    rw [hok, if_pos hfit]
    by_cases hnone : c.hosts = []
    · rw [if_pos hnone]
      exact if_pos (.inr (by rw [hnone, List.map_nil]))
    · rw [if_neg hnone]
      refine if_neg ?_
      rintro (h | h)
      · cases h
      · exact hnone (List.map_eq_nil_iff.mp h)
  · have hlisten := textLine_listen (s := .start tmpHost) c.named c.port_lt rfl
    rw [if_neg hfit] at hlisten
    rw [textLines, List.foldlM_cons, hlisten, if_neg hfit]
    rfl

/-- `m_hostname` up to the first NUL. -/
def Host.name (h : Host) : List UInt8 := cut h.hostname

theorem hostOf_name (hn : 0 ∉ n) (port conncnt : Int) : (hostOf n port conncnt).name = n := by
  have hzeros : ∀ k, cut (n ++ List.replicate k 0) = n := by
    intro k
    cases k with
    | zero => rw [List.replicate_zero, List.append_nil, cut_of_not_mem hn]
    | succ k => rw [List.replicate_succ, cut_append_nul, cut_of_not_mem hn]
  rw [Host.name, hostOf, overwrite, List.take_zero, List.nil_append, List.drop_replicate]
  exact hzeros _

/-- `balance_srv` starts with the listen host, and `logical_srv` has the hosts in order. -/
def Returns (c : Config) (result : Except Failure (List Host × List Host)) : Prop :=
  ∃ b bs ls, result = .ok (b :: bs, ls) ∧ b.name = c.listenHost ∧ b.port = c.listenPort ∧
    ls.map (fun h => (h.name, h.port, h.conncnt)) =
      c.hosts.map fun h => (h.name, (h.port : Int), (h.conns : Int))

theorem listen_name (c : Config) (port conncnt : Int) :
    (hostOf (listenText ++ 32 :: c.listenHost) port conncnt).name =
      listenText ++ 32 :: c.listenHost := by
  refine hostOf_name ?_ port conncnt
  simp only [List.mem_append, List.mem_cons, not_or]
  exact ⟨by decide, by decide, fun h => (c.named.2.2 0 h).1 rfl⟩

theorem hosts_fields (c : Config) :
    (c.hosts.map fun h => hostOf h.name h.port h.conns).map
        (fun h => (h.name, h.port, h.conncnt)) =
      c.hosts.map fun h => (h.name, (h.port : Int), (h.conns : Int)) := by
  rw [List.map_map]
  refine List.map_congr_left fun h _ => ?_
  have hname := hostOf_name (fun hz => (h.named.2.2 0 hz).1 rfl) h.port h.conns
  exact congrArg (·, (h.port : Int), (h.conns : Int)) hname

/-- No configuration comes back: the name of the listen host starts with `Listen`. Its port and the
logical hosts come back, where there is room for that name and there is a logical host. -/
theorem parseConfig_listen (tmpHost : Host) (c : Config) :
    ¬ Returns c (parseConfig tmpHost c.render) ∧
      (c.hosts ≠ [] → c.listenHost.length ≤ 1017 →
        ∃ b ls, parseConfig tmpHost c.render = .ok ([b], ls) ∧
          b.name = listenText ++ 32 :: c.listenHost ∧ b.port = c.listenPort ∧
          ls.map (fun h => (h.name, h.port, h.conncnt)) =
            c.hosts.map fun h => (h.name, (h.port : Int), (h.conns : Int))) := by
  have hlen : (listenText ++ 32 :: c.listenHost).length = 7 + c.listenHost.length := by
    rw [List.length_append, List.length_cons]
    show 6 + _ = _
    omega
  have hsize : hostnameSize = 1024 := rfl
  rw [parseConfig_render]
  constructor
  · rintro ⟨b, bs, ls, hok, hname, _⟩
    split at hok
    · split at hok
      · cases hok
      · cases hok
        rw [listen_name] at hname
        have hbad := congrArg List.length hname
        omega
    · cases hok
  · intro hne hroom
    rw [if_pos (by omega), if_neg hne]
    exact ⟨_, _, rfl, listen_name c _ _, rfl, hosts_fields c⟩

/-- `Listen 10.0.0.1:80`, and one logical host `10.0.0.2` on port 8080 with 5 connections. -/
def smallConfig : Config where
  listenHost := [49, 48, 46, 48, 46, 48, 46, 49]
  listenPort := 80
  hosts := [{ name := [49, 48, 46, 48, 46, 48, 46, 50], port := 8080, conns := 5
              named := by decide, port_lt := by decide, conns_lt := by decide }]
  named := by decide
  port_lt := by decide

theorem smallConfig_lost : ¬ ∀ (tmpHost : Host) (c : Config),
    Returns c (parseConfig tmpHost c.render) := by
  intro hall
  obtain ⟨b, bs, ls, hok, hname, _⟩ :=
    hall { hostname := [], port := 0, conncnt := 0 } smallConfig
  rw [parseConfig_render] at hok
  cases hok
  exact absurd hname (by decide +kernel)

end File

end Springsnail
end Unpvol1
