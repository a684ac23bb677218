import Unpvol1.Springsnail.Config

/-!
# Springsnail.ConfigBlocks

What a configuration file makes of its `logical_host` blocks, whatever its lines are.

* `fileLines`, `parseConfig_lines` — the lines the loop reads of a file, and that it reads no more.
* `Item`, `itemOf`, `Parsed.step` — what a line is, by the tests of the loop in their order.
* `Read`             — the variables after some lines: what of `tmp_host` each of them is left from,
  and the block each logical host comes from. By induction on the lines (`read_run`).
* `logical_given_iff` — a logical host is what the lines of its block give just when the block has
  them all (`Fresh`) and nothing else has got into `tmp_host`.
-/

namespace Unpvol1
namespace Springsnail

/-! ## The lines of a file -/

/-- The lines before the first NUL, each with a newline behind it. -/
def fileLines : List UInt8 → List (List UInt8)
  | [] => []
  | b :: l =>
    if b = 0 then []
    else if b = newline then [] :: fileLines l
    else
      match fileLines l with
      | [] => []
      | t :: ts => (b :: t) :: ts

theorem fileLines_length (file : List UInt8) : (fileLines file).length ≤ file.length := by
  induction file with
  | nil => exact Nat.le_refl 0
  | cons b l ih =>
    unfold fileLines
    split
    · exact Nat.zero_le _
    · split
      · exact Nat.succ_le_succ ih
      · cases h : fileLines l with
        | nil => exact Nat.zero_le _
        | cons t ts =>
          rw [h] at ih
          exact Nat.le_succ_of_le ih

/-- By induction on the bytes: the lines, and what is behind the last of them. -/
theorem fileLines_split (file : List UInt8) : ∃ last rest,
    file ++ [0] = (fileLines file).flatMap (· ++ [newline]) ++ (last ++ 0 :: rest) ∧
      Plain last ∧ ∀ t ∈ fileLines file, Plain t := by
  induction file with
  | nil =>
    exact ⟨[], [], rfl, fun b hb => absurd hb List.not_mem_nil,
      fun t ht => absurd ht List.not_mem_nil⟩
  | cons b l ih =>
    obtain ⟨last, rest, hsplit, hlast, hlines⟩ := ih
    unfold fileLines
    split
    · rename_i hb
      subst hb
      exact ⟨[], l ++ [0], rfl, fun b hb => absurd hb List.not_mem_nil,
        fun t ht => absurd ht List.not_mem_nil⟩
    · rename_i hb0
      split
      · rename_i hb
        subst hb
        refine ⟨last, rest, ?_, hlast, ?_⟩
        · rw [List.cons_append, hsplit]
          rfl
        · exact List.forall_mem_cons.mpr ⟨fun b hb => absurd hb List.not_mem_nil, hlines⟩
      · rename_i hbn
        cases h : fileLines l with
        | nil =>
          rw [h] at hsplit
          refine ⟨b :: last, rest, ?_, List.forall_mem_cons.mpr ⟨⟨hb0, hbn⟩, hlast⟩,
            fun t ht => absurd ht List.not_mem_nil⟩
          rw [List.cons_append, hsplit]
          rfl
        | cons t ts =>
          rw [h] at hsplit hlines
          obtain ⟨ht, hts⟩ := List.forall_mem_cons.mp hlines
          refine ⟨last, rest, ?_, hlast, ?_⟩
          · rw [List.cons_append, hsplit]
            rfl
          · exact List.forall_mem_cons.mpr
              ⟨List.forall_mem_cons.mpr ⟨⟨hb0, hbn⟩, ht⟩, hts⟩

/-- The test behind the loop. -/
def accept (r : Except Failure Parsed) : Except Failure (List Host × List Host) :=
  match r with
  | .error e => .error e
  | .ok s =>
    if s.balanceSrv = [] ∨ s.logicalSrv = [] then .error .parseFailed
    else .ok (s.balanceSrv, s.logicalSrv)

/-- The loop is the fold of its lines, for every file. -/
theorem parseConfig_lines (tmpHost : Host) (file : List UInt8) :
    parseConfig tmpHost file = accept (textLines (.start tmpHost) (fileLines file)) := by
  obtain ⟨last, rest, hsplit, hlast, hlines⟩ := fileLines_split file
  have hbuf : (file ++ [0]).drop 0 =
      (fileLines file).flatMap (· ++ [newline]) ++ (last ++ 0 :: rest) := by
    rw [List.drop_zero, hsplit]
  have hloop := configLoop_lines hlines hlast hbuf (.start tmpHost) (file.length + 1)
    (Nat.lt_succ_of_le (fileLines_length file))
  exact congrArg accept hloop

/-! ## What a line is -/

inductive Item where
  | opens
  | closes
  | name (text : List UInt8)
  | port (port : Int)
  | conns (conncnt : Int)
  | listen (text : List UInt8) (port : Int)
  | other
  /-- An end tag or a colon is missing. -/
  | bad
deriving DecidableEq

/-- The element of a line, or a missing end tag. -/
def elementItem (t : List UInt8) (endTag : List UInt8) (item : List UInt8 → Item) : Item :=
  match elementText t endTag with
  | .error _ => .bad
  | .ok text => item text

def itemOf (t : List UInt8) : Item :=
  if (findSub (openTag logicalHostWord) t).isSome then .opens
  else if (findSub (closeTag logicalHostWord) t).isSome then .closes
  else
    match findSub (openTag nameWord) t with
    | some k => elementItem (t.drop (k + 6)) (closeTag nameWord) .name
    | none =>
      match findSub (openTag portWord) t with
      | some k => elementItem (t.drop (k + 6)) (closeTag portWord) fun text => .port (atoi text)
      | none =>
        match findSub (openTag connsWord) t with
        | some k => elementItem (t.drop (k + 7)) (closeTag connsWord) fun text => .conns (atoi text)
        | none =>
          match findSub listenText t with
          | none => .other
          | some k =>
            match findSub [colon] (t.drop (k + 6)) with
            | none => .bad
            | some j => .listen ((t.drop k).take (6 + j)) (atoi (t.drop (k + 6 + j + 1)))

/-- What the loop does with a line. -/
def Parsed.step (s : Parsed) : Item → Except Failure Parsed
  | .opens => if s.opentag then .error .parseFailed else .ok { s with opentag := true }
  | .closes =>
    if s.opentag then
      .ok { s with
        logicalSrv := s.logicalSrv ++ [s.tmpHost], tmpHost := s.tmpHost.clear, opentag := false }
    else .error .parseFailed
  | .name text =>
    match s.tmpHost.copyName text with
    | .error e => .error e
    | .ok h => .ok { s with tmpHost := h }
  | .port port => .ok { s with tmpHost := { s.tmpHost with port := port } }
  | .conns conncnt => .ok { s with tmpHost := { s.tmpHost with conncnt := conncnt } }
  | .listen text port =>
    match Host.copyName { s.tmpHost with port := port } text with
    | .error e => .error e
    | .ok h => .ok { s with balanceSrv := s.balanceSrv ++ [h], tmpHost := h.clear }
  | .other => .ok s
  | .bad => .error .parseFailed

theorem elementText_error {t endTag : List UInt8} {e : Failure}
    (h : elementText t endTag = .error e) : e = .parseFailed := by
  unfold elementText at h
  split at h
  · cases h
    rfl
  · cases h

theorem textLine_item (s : Parsed) (t : List UInt8) : textLine s t = s.step (itemOf t) := by
  unfold textLine itemOf
  split
  · rfl
  split
  · rfl
  cases findSub (openTag nameWord) t with
  | some k =>
    simp only [elementItem]
    cases he : elementText (t.drop (k + 6)) (closeTag nameWord) with
    | error e => rw [elementText_error he]; rfl
    | ok text => rfl
  | none =>
  cases findSub (openTag portWord) t with
  | some k =>
    simp only [elementItem]
    cases he : elementText (t.drop (k + 6)) (closeTag portWord) with
    | error e => rw [elementText_error he]; rfl
    | ok text => rfl
  | none =>
  cases findSub (openTag connsWord) t with
  | some k =>
    simp only [elementItem]
    cases he : elementText (t.drop (k + 7)) (closeTag connsWord) with
    | error e => rw [elementText_error he]; rfl
    | ok text => rfl
  | none =>
  cases findSub listenText t with
  | none => rfl
  | some k =>
    dsimp only
    cases findSub [colon] (t.drop (k + 6)) with
    | none => rfl
    | some j => rfl

theorem textLines_items (s : Parsed) (ls : List (List UInt8)) :
    textLines s ls = (ls.map itemOf).foldlM Parsed.step s := by
  rw [textLines, List.foldlM_map]
  congr 1
  funext s t
  exact textLine_item s t

/-! ## What the lines leave -/

/-- The names of the name lines, in order; and so the ports and the connection counts. -/
def names (l : List Item) : List (List UInt8) := l.filterMap fun
  | .name text => some text
  | _ => none

def ports (l : List Item) : List Int := l.filterMap fun
  | .port port => some port
  | _ => none

def connss (l : List Item) : List Int := l.filterMap fun
  | .conns conncnt => some conncnt
  | _ => none

/-- The values stored in `m_port`: a `Listen` line stores its port there too. -/
def portsStored (l : List Item) : List Int := l.filterMap fun
  | .port port => some port
  | .listen _ port => some port
  | _ => none

/-- The names copied into `m_hostname` since it was cleared last. -/
def held : List Item → List (List UInt8) := List.foldl (fun ns item => match item with
  | .name text => ns ++ [text]
  | .closes => []
  | .listen _ _ => []
  | _ => ns) []

/-- The names copied one over the other. -/
def layered (ns : List (List UInt8)) : List UInt8 :=
  ns.foldl (fun mem n => overwrite mem 0 n) (List.replicate hostnameSize 0)

def NoTags (l : List Item) : Prop := .opens ∉ l ∧ .closes ∉ l

/-- `tmp_host` after the lines `l`. -/
structure Left (tmpHost : Host) (l : List Item) (h : Host) : Prop where
  name : h.hostname = layered (held l)
  port : h.port = (portsStored l).getLast?.getD tmpHost.port
  conns : h.conncnt = (connss l).getLast?.getD tmpHost.conncnt

/-- The variables after the lines `l`: an open tag has its line behind the blocks, and a logical
host is what `tmp_host` was when its block was closed. -/
structure Read (tmpHost : Host) (l : List Item) (s : Parsed) : Prop where
  left : Left tmpHost l s.tmpHost
  inside : s.opentag = true → ∃ pre body, l = pre ++ .opens :: body ∧ NoTags body
  closed : s.logicalSrv.length = l.count .closes
  blocks : ∀ i h, s.logicalSrv[i]? = some h → ∃ pre body post,
    l = pre ++ .opens :: (body ++ .closes :: post) ∧ NoTags body ∧ pre.count .closes = i ∧
      Left tmpHost (pre ++ .opens :: body) h

section
variable {tmpHost : Host} {l : List Item} {s s' : Parsed} {h : Host} {item : Item}

theorem names_snoc (l : List Item) (item : Item) : names (l ++ [item]) = names l ++ names [item] :=
  List.filterMap_append

theorem portsStored_snoc (l : List Item) (item : Item) :
    portsStored (l ++ [item]) = portsStored l ++ portsStored [item] := List.filterMap_append

theorem connss_snoc (l : List Item) (item : Item) :
    connss (l ++ [item]) = connss l ++ connss [item] := List.filterMap_append

theorem held_snoc (l : List Item) (item : Item) :
    held (l ++ [item]) = match item with
      | .name text => held l ++ [text]
      | .closes => []
      | .listen _ _ => []
      | _ => held l := by
  rw [held, List.foldl_append]
  rfl

theorem layered_snoc (ns : List (List UInt8)) (n : List UInt8) :
    layered (ns ++ [n]) = overwrite (layered ns) 0 n := by
  rw [layered, List.foldl_append]
  rfl

theorem copyName_ok {h h' : Host} {text : List UInt8} (e : h.copyName text = .ok h') :
    h' = { h with hostname := overwrite h.hostname 0 text } := by
  unfold Host.copyName at e
  split at e
  · cases e
    rfl
  · cases e

/-- The value behind one more line: its own, or the one before. -/
theorem getLast?_getD_append (vs ws : List Int) (d : Int) :
    (vs ++ ws).getLast?.getD d = ws.getLast?.getD (vs.getLast?.getD d) := by
  rw [List.getLast?_append]
  cases ws.getLast? with
  | none => rfl
  | some w => rfl

theorem Left.snoc {h' : Host} (hl : Left tmpHost l h)
    (hname : h'.hostname = layered (held (l ++ [item])))
    (hport : h'.port = (portsStored [item]).getLast?.getD h.port)
    (hconns : h'.conncnt = (connss [item]).getLast?.getD h.conncnt) :
    Left tmpHost (l ++ [item]) h' := by
  refine ⟨hname, ?_, ?_⟩
  · rw [portsStored_snoc, getLast?_getD_append, ← hl.port, hport]
  · rw [connss_snoc, getLast?_getD_append, ← hl.conns, hconns]

/-- What a line leaves of `tmp_host`. -/
theorem Left.step (hl : Left tmpHost l s.tmpHost) (e : s.step item = .ok s') :
    Left tmpHost (l ++ [item]) s'.tmpHost := by
  have hname := hl.name
  have hheld := held_snoc l item
  cases item with
  | opens =>
    simp only [Parsed.step] at e
    split at e
    · cases e
    · cases e
      exact hl.snoc (by rw [hheld, hname]) rfl rfl
  | closes =>
    simp only [Parsed.step] at e
    split at e
    · cases e
      exact hl.snoc (by rw [hheld]; rfl) rfl rfl
    · cases e
  | name text =>
    simp only [Parsed.step] at e
    split at e
    · cases e
    · rename_i h' hcopy
      cases e
      rw [copyName_ok hcopy]
      exact hl.snoc (by rw [hheld, layered_snoc, hname]) rfl rfl
  | port port =>
    cases e
    exact hl.snoc (by rw [hheld, hname]) rfl rfl
  | conns conncnt =>
    cases e
    exact hl.snoc (by rw [hheld, hname]) rfl rfl
  | listen text port =>
    simp only [Parsed.step] at e
    split at e
    · cases e
    · rename_i h' hcopy
      cases e
      rw [copyName_ok hcopy]
      exact hl.snoc (by rw [hheld]; rfl) rfl rfl
  | other =>
    cases e
    exact hl.snoc (by rw [hheld, hname]) rfl rfl
  | bad => cases e

/-- What a line does to the tag and the logical hosts: a line between the tags does nothing. -/
theorem step_tags (e : s.step item = .ok s') :
    (item = .opens ∧ s'.opentag = true ∧ s'.logicalSrv = s.logicalSrv) ∨
    (item = .closes ∧ s.opentag = true ∧ s'.opentag = false ∧
      s'.logicalSrv = s.logicalSrv ++ [s.tmpHost]) ∨
    (item ≠ .opens ∧ item ≠ .closes ∧ s'.opentag = s.opentag ∧
      s'.logicalSrv = s.logicalSrv) := by
  cases item with
  | opens =>
    simp only [Parsed.step] at e
    split at e
    · cases e
    · cases e
      exact .inl ⟨rfl, rfl, rfl⟩
  | closes =>
    simp only [Parsed.step] at e
    split at e
    · rename_i ho
      cases e
      exact .inr (.inl ⟨rfl, ho, rfl, rfl⟩)
    · cases e
  | name text =>
    simp only [Parsed.step] at e
    split at e
    · cases e
    · cases e
      exact .inr (.inr ⟨by simp, by simp, rfl, rfl⟩)
  | listen text port =>
    simp only [Parsed.step] at e
    split at e
    · cases e
    · cases e
      exact .inr (.inr ⟨by simp, by simp, rfl, rfl⟩)
  | bad => cases e
  | port port =>
    cases e
    exact .inr (.inr ⟨by simp, by simp, rfl, rfl⟩)
  | conns conncnt =>
    cases e
    exact .inr (.inr ⟨by simp, by simp, rfl, rfl⟩)
  | other =>
    cases e
    exact .inr (.inr ⟨by simp, by simp, rfl, rfl⟩)

/-- The blocks read so far keep their place when a line follows. -/
theorem Read.earlier (hr : Read tmpHost l s) (item : Item) {i : Nat}
    (hi : s.logicalSrv[i]? = some h) : ∃ pre body post,
      l ++ [item] = pre ++ .opens :: (body ++ .closes :: post) ∧ NoTags body ∧
      pre.count .closes = i ∧ Left tmpHost (pre ++ .opens :: body) h := by
  obtain ⟨pre, body, post, hl, hbody, hcount, hleft⟩ := hr.blocks i h hi
  refine ⟨pre, body, post ++ [item], ?_, hbody, hcount, hleft⟩
  rw [hl]
  simp only [List.append_assoc, List.cons_append]

theorem Read.step (hr : Read tmpHost l s) (e : s.step item = .ok s') :
    Read tmpHost (l ++ [item]) s' := by
  have hleft := hr.left.step e
  rcases step_tags e with ⟨rfl, ho', hsrv⟩ | ⟨rfl, ho, ho', hsrv⟩ | ⟨hopens, hcloses, ho', hsrv⟩
  · refine ⟨hleft, ?_, ?_, ?_⟩
    · intro _
      exact ⟨l, [], rfl, List.not_mem_nil, List.not_mem_nil⟩
    · rw [hsrv, hr.closed, List.count_append]
      rfl
    · intro i h hi
      rw [hsrv] at hi
      exact hr.earlier .opens hi
  · obtain ⟨pre, body, hl, hbody⟩ := hr.inside ho
    refine ⟨hleft, ?_, ?_, ?_⟩
    · intro h
      rw [ho'] at h
      cases h
    · rw [hsrv, List.length_append, hr.closed, List.count_append]
      rfl
    · intro i h hi
      rw [hsrv] at hi
      by_cases hlt : i < s.logicalSrv.length
      · rw [List.getElem?_append_left hlt] at hi
        exact hr.earlier .closes hi
      · -- the block that is closed here
        rw [List.getElem?_append_right (Nat.le_of_not_lt hlt)] at hi
        have hi0 : i - s.logicalSrv.length = 0 := by
          have := (List.getElem?_eq_some_iff.mp hi).1
          rw [List.length_singleton] at this
          omega
        rw [hi0, List.getElem?_cons_zero, Option.some.injEq] at hi
        subst hi
        have hnone : body.count .closes = 0 := List.count_eq_zero.mpr hbody.2
        refine ⟨pre, body, [], ?_, hbody, ?_, hl ▸ hr.left⟩
        · rw [hl, List.append_assoc]
          rfl
        · have hclosed := hr.closed
          rw [hl, List.count_append, List.count_cons, hnone] at hclosed
          simp at hclosed
          omega
  · refine ⟨hleft, ?_, ?_, ?_⟩
    · intro ho
      obtain ⟨pre, body, hl, hbody⟩ := hr.inside (ho' ▸ ho)
      refine ⟨pre, body ++ [item], by rw [hl, List.append_assoc]; rfl, ?_, ?_⟩
      · rw [List.mem_append, List.mem_singleton]
        exact fun hmem => hmem.elim hbody.1 fun he => hopens he.symm
      · rw [List.mem_append, List.mem_singleton]
        exact fun hmem => hmem.elim hbody.2 fun he => hcloses he.symm
    · have hzero : [item].count .closes = 0 := by
        rw [List.count_eq_zero, List.mem_singleton]
        exact fun he => hcloses he.symm
      rw [hsrv, hr.closed, List.count_append, hzero, Nat.add_zero]
    · intro i h hi
      rw [hsrv] at hi
      exact hr.earlier item hi

theorem read_start (tmpHost : Host) : Read tmpHost [] (.start tmpHost) where
  left := ⟨rfl, rfl, rfl⟩
  inside h := by cases h
  closed := rfl
  blocks i h hi := by cases hi

/-- By induction on the lines. -/
theorem read_run (items past : List Item) (hr : Read tmpHost past s)
    (e : items.foldlM Parsed.step s = .ok s') : Read tmpHost (past ++ items) s' := by
  induction items generalizing s past with
  | nil =>
    cases e
    rwa [List.append_nil]
  | cons item items ih =>
    rw [List.foldlM_cons] at e
    cases hs : s.step item with
    | error f =>
      rw [hs] at e
      cases e
    | ok s₁ =>
      rw [hs] at e
      have hrec := ih (past ++ [item]) (hr.step hs) e
      rwa [List.append_assoc] at hrec

/-! ## The name -/

theorem overwrite_zero (mem n : List UInt8) :
    overwrite mem 0 n = n ++ mem.drop n.length := by
  rw [overwrite, List.take_zero, List.nil_append, Nat.zero_add]

/-- There is a NUL at `k` just when no name has come that far. -/
theorem layered_get (ns : List (List UInt8)) (hns : ∀ n ∈ ns, 0 ∉ n) (k : Nat) :
    (layered ns).getD k 0 = 0 ↔ ∀ n ∈ ns, n.length ≤ k := by
  induction ns using List.reverseRecOn with
  | nil =>
    refine iff_of_true ?_ fun n hn => absurd hn List.not_mem_nil
    show (List.replicate hostnameSize 0).getD k 0 = 0
    rw [List.getD_eq_getElem?_getD, List.getElem?_replicate]
    split
    · rfl
    · rfl
  | append_singleton ns n ih =>
    have hn := hns n (List.mem_append_right _ List.mem_cons_self)
    have hrest := ih fun m hm => hns m (List.mem_append_left _ hm)
    rw [layered_snoc, overwrite_zero, List.forall_mem_append, List.forall_mem_singleton]
    by_cases hk : k < n.length
    · rw [List.getD_eq_getElem?_getD, List.getElem?_append_left hk, List.getElem?_eq_getElem hk,
        Option.getD_some]
      refine iff_of_false ?_ fun h => absurd h.2 (Nat.not_le.mpr hk)
      intro hzero
      exact hn (hzero ▸ List.getElem_mem hk)
    · have hle := Nat.le_of_not_lt hk
      rw [List.getD_eq_getElem?_getD, List.getElem?_append_right hle, List.getElem?_drop,
        Nat.add_sub_cancel' hle, ← List.getD_eq_getElem?_getD, hrest]
      exact ⟨fun h => ⟨h, hle⟩, fun h => h.1⟩

/-- The name that was copied last is there alone just when none before it was longer. -/
theorem layered_name {ns : List (List UInt8)} {n : List UInt8} (hns : ∀ m ∈ ns, 0 ∉ m)
    (hlast : ns.getLast? = some n) : cut (layered ns) = n ↔ ∀ m ∈ ns, m.length ≤ n.length := by
  obtain ⟨ms, rfl⟩ := List.getLast?_eq_some_iff.mp hlast
  have hn := hns n (List.mem_append_right _ List.mem_cons_self)
  have hms : ∀ m ∈ ms, 0 ∉ m := fun m hm => hns m (List.mem_append_left _ hm)
  have hcut : cut (layered (ms ++ [n])) = n ++ cstr (layered ms) n.length := by
    rw [layered_snoc, overwrite_zero, cut, List.takeWhile_append_of_pos]
    · rfl
    · intro b hb
      exact decide_eq_true fun hzero => hn (hzero ▸ hb)
  rw [hcut, List.append_right_eq_self, cstr_eq_nil, layered_get ms hms, List.forall_mem_append,
    List.forall_mem_singleton]
  exact ⟨fun h => ⟨h, Nat.le_refl _⟩, fun h => h.1⟩

theorem layered_nil : cut (layered []) = [] := by
  show (List.replicate hostnameSize 0).takeWhile _ = []
  rw [show hostnameSize = 1023 + 1 from rfl, List.replicate_succ, List.takeWhile_cons]
  rfl

/-- What has been copied since the array was cleared are names of the lines, the last one last. -/
theorem held_names (l : List Item) :
    (∀ n ∈ held l, n ∈ names l) ∧ (held l ≠ [] → (held l).getLast? = (names l).getLast?) := by
  induction l using List.reverseRecOn with
  | nil => exact ⟨fun n hn => hn, fun h => absurd rfl h⟩
  | append_singleton l item ih =>
    have hsame : held (l ++ [item]) = held l → names [item] = [] →
        (∀ n ∈ held (l ++ [item]), n ∈ names (l ++ [item])) ∧
          (held (l ++ [item]) ≠ [] →
            (held (l ++ [item])).getLast? = (names (l ++ [item])).getLast?) := by
      intro hh hn
      rw [hh, names_snoc, hn, List.append_nil]
      exact ih
    have hclear : held (l ++ [item]) = [] →
        (∀ n ∈ held (l ++ [item]), n ∈ names (l ++ [item])) ∧
          (held (l ++ [item]) ≠ [] →
            (held (l ++ [item])).getLast? = (names (l ++ [item])).getLast?) := by
      intro hh
      rw [hh]
      exact ⟨fun n hn => absurd hn List.not_mem_nil, fun h => absurd rfl h⟩
    have hheld := held_snoc l item
    cases item with
    | name text =>
      have hnames : names (l ++ [.name text]) = names l ++ [text] := names_snoc l (.name text)
      rw [hheld, hnames]
      refine ⟨?_, fun _ => by rw [List.getLast?_concat, List.getLast?_concat]⟩
      intro n hn
      rcases List.mem_append.mp hn with hn | hn
      · exact List.mem_append_left _ (ih.1 n hn)
      · exact List.mem_append_right _ hn
    | opens => exact hsame hheld rfl
    | closes => exact hclear hheld
    | port port => exact hsame hheld rfl
    | conns conncnt => exact hsame hheld rfl
    | listen text port => exact hclear hheld
    | other => exact hsame hheld rfl
    | bad => exact hsame hheld rfl

/-! ## The blocks -/

/-- The block number `i` of the lines, and the lines before it. -/
def IsBlock (items : List Item) (i : Nat) (pre body : List Item) : Prop :=
  ∃ post, items = pre ++ .opens :: (body ++ .closes :: post) ∧ NoTags body ∧
    pre.count .closes = i

/-- As many of `x` before a place of it: the same place. -/
theorem split_unique {a a' b b' : List Item} {x : Item} (h : a ++ x :: b = a' ++ x :: b')
    (hcount : a.count x = a'.count x) : a = a' ∧ b = b' := by
  induction a generalizing a' with
  | nil =>
    cases a' with
    | nil => exact ⟨rfl, (List.cons.inj h).2⟩
    | cons y a' =>
      obtain ⟨rfl, _⟩ := List.cons.inj h
      rw [List.count_nil, List.count_cons_self] at hcount
      omega
  | cons y a ih =>
    cases a' with
    | nil =>
      obtain ⟨rfl, _⟩ := List.cons.inj h
      rw [List.count_nil, List.count_cons_self] at hcount
      omega
    | cons z a' =>
      obtain ⟨rfl, htail⟩ := List.cons.inj h
      rw [List.count_cons, List.count_cons, Nat.add_right_cancel_iff] at hcount
      obtain ⟨rfl, rfl⟩ := ih htail hcount
      exact ⟨rfl, rfl⟩

/-- The number determines the block. -/
theorem IsBlock.unique {items pre body pre' body' : List Item} {i : Nat}
    (hb : IsBlock items i pre body) (hb' : IsBlock items i pre' body') :
    pre = pre' ∧ body = body' := by
  obtain ⟨post, hl, hbody, hcount⟩ := hb
  obtain ⟨post', hl', hbody', hcount'⟩ := hb'
  have hcloses : ∀ {p b : List Item}, NoTags b → p.count .closes = i →
      (p ++ .opens :: b).count .closes = i := by
    intro p b hno hp
    have hzero : b.count .closes = 0 := List.count_eq_zero.mpr hno.2
    rw [List.count_append, List.count_cons, hzero, hp]
    rfl
  have hsame : (pre ++ .opens :: body) ++ .closes :: post =
      (pre' ++ .opens :: body') ++ .closes :: post' := by
    rw [List.append_assoc, List.cons_append, ← hl, hl', List.append_assoc, List.cons_append]
  obtain ⟨hfront, _⟩ := split_unique hsame
    ((hcloses hbody hcount).trans (hcloses hbody' hcount').symm)
  have hopens : body.count .opens = 0 := List.count_eq_zero.mpr hbody.1
  have hopens' : body'.count .opens = 0 := List.count_eq_zero.mpr hbody'.1
  have htotal := congrArg (List.count Item.opens) hfront
  rw [List.count_append, List.count_append, List.count_cons_self, List.count_cons_self, hopens,
    hopens', Nat.add_right_cancel_iff] at htotal
  exact split_unique hfront htotal

/-- The name, the port and the connection count of a host are those its block gives, by the last
line of each kind. -/
def Given (body : List Item) (h : Host) : Prop :=
  (names body).getLast? = some h.name ∧ (ports body).getLast? = some h.port ∧
    (connss body).getLast? = some h.conncnt

/-- The block `body` behind the lines `pre` has a line of each kind; no `Listen` line in it stores
another port behind its last port line; and since the name was cleared last, behind the last block
or `Listen` line, the last name of the block has been copied, with none longer before it (an empty
one may be cleared). -/
def Fresh (pre body : List Item) : Prop :=
  ∃ n p c, (names body).getLast? = some n ∧ (ports body).getLast? = some p ∧
    (connss body).getLast? = some c ∧ (portsStored body).getLast? = some p ∧
    (held (pre ++ .opens :: body) ≠ [] ∨ n = []) ∧
    ∀ m ∈ held (pre ++ .opens :: body), m.length ≤ n.length

theorem getLast?_of_block {α : Type} {f : Item → Option α} (hopens : f .opens = none)
    (pre : List Item) {body : List Item} {v : α}
    (h : (body.filterMap f).getLast? = some v) :
    ((pre ++ .opens :: body).filterMap f).getLast? = some v := by
  rw [List.filterMap_append, List.filterMap_cons_none hopens, List.getLast?_append, h]
  rfl

/-- The last port stored in a block with a port line is stored by a line of the block. -/
theorem portsStored_some {body : List Item} {p : Int} (h : (ports body).getLast? = some p) :
    ∃ q, (portsStored body).getLast? = some q := by
  cases hq : (portsStored body).getLast? with
  | some q => exact ⟨q, rfl⟩
  | none =>
    have hnil := List.getLast?_eq_none_iff.mp hq
    have hmem := List.mem_of_getLast? h
    obtain ⟨item, hitem, hp⟩ := List.mem_filterMap.mp hmem
    have hnone := List.filterMap_eq_nil_iff.mp hnil item hitem
    cases item with
    | port port => cases hnone
    | opens => cases hp
    | closes => cases hp
    | name text => cases hp
    | conns conncnt => cases hp
    | listen text port => cases hp
    | other => cases hp
    | bad => cases hp

theorem given_iff {pre body : List Item} (hnul : ∀ n ∈ names (pre ++ .opens :: body), 0 ∉ n)
    (hl : Left tmpHost (pre ++ .opens :: body) h) : Given body h ↔ Fresh pre body := by
  obtain ⟨hsub, hlast⟩ := held_names (pre ++ .opens :: body)
  have hheld : ∀ m ∈ held (pre ++ .opens :: body), 0 ∉ m := fun m hm => hnul m (hsub m hm)
  have hname : h.name = cut (layered (held (pre ++ .opens :: body))) := congrArg cut hl.name
  have hport : ∀ q, (portsStored body).getLast? = some q → h.port = q := by
    intro q hq
    rw [hl.port, portsStored, getLast?_of_block rfl pre hq]
    rfl
  have hconns : ∀ c, (connss body).getLast? = some c → h.conncnt = c := by
    intro c hc
    rw [hl.conns, connss, getLast?_of_block rfl pre hc]
    rfl
  have hname_iff : ∀ n, (names body).getLast? = some n → (h.name = n ↔
      (held (pre ++ .opens :: body) ≠ [] ∨ n = []) ∧
        ∀ m ∈ held (pre ++ .opens :: body), m.length ≤ n.length) := by
    intro n hn
    rw [hname]
    by_cases hnil : held (pre ++ .opens :: body) = []
    · rw [hnil, layered_nil]
      constructor
      · intro he
        exact ⟨.inr he.symm, fun m hm => absurd hm List.not_mem_nil⟩
      · rintro ⟨hno | he, _⟩
        · exact absurd rfl hno
        · exact he.symm
    · have hn' := getLast?_of_block (f := fun | .name text => some text | _ => none) rfl pre hn
      rw [layered_name hheld ((hlast hnil).trans hn')]
      exact ⟨fun hm => ⟨.inl hnil, hm⟩, fun hm => hm.2⟩
  constructor
  · rintro ⟨hn, hp, hc⟩
    obtain ⟨q, hq⟩ := portsStored_some hp
    obtain ⟨hfirst, hall⟩ := (hname_iff h.name hn).mp rfl
    refine ⟨h.name, h.port, h.conncnt, hn, hp, hc, ?_, hfirst, hall⟩
    rw [hq, hport q hq]
  · rintro ⟨n, p, c, hn, hp, hc, hq, hfirst, hall⟩
    rw [Given, hn, hp, hc, (hname_iff n hn).mpr ⟨hfirst, hall⟩, hport p hq, hconns c hc]
    exact ⟨rfl, rfl, rfl⟩

theorem elementText_mem {t endTag text : List UInt8} (h : elementText t endTag = .ok text)
    {b : UInt8} (hb : b ∈ text) : b ∈ t := by
  unfold elementText at h
  split at h
  · cases h
  · cases h
    exact List.mem_of_mem_take hb

/-- A name is a piece of its line. -/
theorem not_mem_name {t text : List UInt8} (ht : Plain t) (h : itemOf t = .name text) :
    0 ∉ text := by
  have hpiece : ∀ {k : Nat} {endTag : List UInt8} {item : List UInt8 → Item},
      elementItem (t.drop k) endTag item = .name text → (∀ u, item u = .name text → u = text) →
      0 ∉ text := by
    intro k endTag item he hitem hzero
    unfold elementItem at he
    split at he
    · cases he
    · rename_i u hu
      have hmem := elementText_mem (hitem u he ▸ hu) hzero
      exact (ht 0 (List.mem_of_mem_drop hmem)).1 rfl
  unfold itemOf at h
  split at h
  · cases h
  split at h
  · cases h
  split at h
  · exact hpiece h fun u hu => by cases hu; rfl
  split at h
  · exact hpiece h fun u hu => by cases hu
  split at h
  · exact hpiece h fun u hu => by cases hu
  split at h
  · cases h
  split at h
  · cases h
  · cases h

theorem not_mem_names {ls : List (List UInt8)} (hls : ∀ t ∈ ls, Plain t) :
    ∀ n ∈ names (ls.map itemOf), 0 ∉ n := by
  intro n hn
  obtain ⟨item, hitem, he⟩ := List.mem_filterMap.mp hn
  obtain ⟨t, ht, rfl⟩ := List.mem_map.mp hitem
  split at he
  · rename_i text hname
    cases he
    exact not_mem_name (hls t ht) hname
  · cases he

theorem accept_ok {r : Except Failure Parsed} {bs ls : List Host} (h : accept r = .ok (bs, ls)) :
    ∃ s, r = .ok s ∧ s.logicalSrv = ls := by
  unfold accept at h
  split at h
  · cases h
  · rename_i s
    split at h
    · cases h
    · cases h
      exact ⟨s, rfl, rfl⟩

/-- Every logical host of an accepted file has its block, and the name, the port and the connection
count the block gives just when it gives them all and nothing else has got into the name or the
port. -/
theorem logical_given_iff (tmpHost : Host) (file : List UInt8) (bs ls : List Host)
    (hok : parseConfig tmpHost file = .ok (bs, ls)) (i : Nat) (h : Host) (hi : ls[i]? = some h) :
    (∃ pre body, IsBlock ((fileLines file).map itemOf) i pre body) ∧
      ∀ pre body, IsBlock ((fileLines file).map itemOf) i pre body →
        (Given body h ↔ Fresh pre body) := by
  rw [parseConfig_lines] at hok
  obtain ⟨s, hs, rfl⟩ := accept_ok hok
  rw [textLines_items] at hs
  have hread := read_run ((fileLines file).map itemOf) [] (read_start tmpHost) hs
  obtain ⟨pre, body, post, hl, hbody, hcount, hleft⟩ := hread.blocks i h hi
  rw [List.nil_append] at hl
  have hblock : IsBlock ((fileLines file).map itemOf) i pre body := ⟨post, hl, hbody, hcount⟩
  refine ⟨⟨pre, body, hblock⟩, ?_⟩
  intro pre' body' hblock'
  obtain ⟨rfl, rfl⟩ := hblock.unique hblock'
  refine given_iff ?_ hleft
  intro n hn
  obtain ⟨_, _, _, _, hlines⟩ := fileLines_split file
  refine not_mem_names hlines n ?_
  rw [hl, ← List.cons_append, ← List.append_assoc]
  exact List.mem_filterMap.mpr ((List.mem_filterMap.mp hn).imp fun item hitem =>
    ⟨List.mem_append_left _ hitem.1, hitem.2⟩)

/-- `Listen a:80`, some more lines, and a logical host `d` on port 81 with 5 connections. -/
def fileWith (more : List (List UInt8)) : List UInt8 :=
  ([listenText ++ [32, 97, colon, 56, 48]] ++ more ++
    [openTag logicalHostWord, elementLine nameWord [100], elementLine portWord [56, 49],
      elementLine connsWord [53], closeTag logicalHostWord]).flatMap (· ++ [newline])

def blockLines : List Item := [.name [100], .port 81, .conns 5]

theorem parsed_fields (file : List UInt8) (hosts : List (List UInt8 × Int × Int))
    (h : ((parseConfig ⟨[], 0, 0⟩ file).toOption.map fun r =>
      r.2.map fun h => (h.name, h.port, h.conncnt)) = some hosts) :
    ∃ bs ls, parseConfig ⟨[], 0, 0⟩ file = .ok (bs, ls) ∧
      (ls.map fun h => (h.name, h.port, h.conncnt)) = hosts := by
  obtain ⟨⟨bs, ls⟩, hr, hls⟩ := Option.map_eq_some_iff.mp h
  refine ⟨bs, ls, ?_, hls⟩
  cases hp : parseConfig ⟨[], 0, 0⟩ file with
  | error e =>
    rw [hp] at hr
    cases hr
  | ok r =>
    rw [hp] at hr
    cases hr
    rfl

/-- Nothing but the two of them in the file. -/
theorem logical_given_alone : ∃ bs ls h, parseConfig ⟨[], 0, 0⟩ (fileWith []) = .ok (bs, ls) ∧
    ls[0]? = some h ∧ Given blockLines h := by
  obtain ⟨bs, ls, hok, hls⟩ := parsed_fields (fileWith []) [([100], 81, 5)]
    (by decide +kernel)
  cases ls with
  | nil => cases hls
  | cons h ls =>
    refine ⟨bs, h :: ls, h, hok, rfl, ?_⟩
    have hiff := (logical_given_iff ⟨[], 0, 0⟩ (fileWith []) bs (h :: ls) hok 0 h rfl).2
      [.listen (listenText ++ [32, 97]) 80] blockLines
      ⟨[], by decide +kernel, ⟨by decide, by decide⟩, rfl⟩
    exact hiff.mpr ⟨[100], 81, 5, rfl, rfl, rfl, rfl, .inl (by decide), by decide⟩

/-- A name line between the `Listen` line and the block: the logical host is called `dc`. -/
theorem logical_given_stray :
    ¬ ∀ (tmpHost : Host) (file : List UInt8) (bs ls : List Host),
      parseConfig tmpHost file = .ok (bs, ls) → ∀ (i : Nat) (h : Host), ls[i]? = some h →
        ∀ pre body, IsBlock ((fileLines file).map itemOf) i pre body → Given body h := by
  intro hall
  obtain ⟨bs, ls, hok, hls⟩ := parsed_fields (fileWith [elementLine nameWord [98, 99]])
    [([100, 99], 81, 5)] (by decide +kernel)
  cases ls with
  | nil => cases hls
  | cons h ls =>
    have hgiven := hall _ _ bs (h :: ls) hok 0 h rfl
      [.listen (listenText ++ [32, 97]) 80, .name [98, 99]] blockLines
      ⟨[], by decide +kernel, ⟨by decide, by decide⟩, rfl⟩
    have hname : h.name = [100, 99] := congrArg Prod.fst (List.cons.inj hls).1
    have hbad := hgiven.1
    rw [hname] at hbad
    cases hbad

/-- A block without a port line behind the `Listen` line, whose port it gets. -/
example :
    ((parseConfig ⟨[], 0, 0⟩ (([listenText ++ [32, 97, colon, 56, 48], openTag logicalHostWord,
        elementLine nameWord [100], elementLine connsWord [53],
        closeTag logicalHostWord]).flatMap (· ++ [newline]))).toOption.map fun r =>
      r.2.map fun h => (h.name, h.port, h.conncnt)) = some [([100], 80, 5)] := by
  decide +kernel

end

end Springsnail
end Unpvol1
