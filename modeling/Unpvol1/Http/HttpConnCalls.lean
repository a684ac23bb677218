import Unpvol1.Http.HttpConnBody

/-!
# Http.HttpConnCalls

The calls of `process_read` on a stream that comes in chunks.

* `calls` — what has been read before and after each call.
* `bodyVerdict`, `body_serve` — the calls on a body; `bodyVerdict_eq` — when they end as one call
  on all of it does.
* `serve_head` — the calls up to the one in which the head ends.
-/

namespace Unpvol1.HttpConn

open Http

/-! ## The file lookup -/

section Lookup

variable {fs : FileSystem} {p q : Conn} {u : Nat}

/-- The lookup depends on the members and the string at `m_url`. -/
theorem doRequest_code (hstate : p.state = q.state) (hu : q.state.url = some u)
    (hc : cstr p.line.readBuf u = cstr q.line.readBuf u) :
    (doRequest fs p).map Prod.fst = (doRequest fs q).map Prod.fst := by
  simp only [doRequest, hstate, hu, hc]
  split
  · rfl
  · split
    · rfl
    · split
      · rfl
      · rfl

/-- With a URL there is a result, and it is not `NO_REQUEST`. -/
theorem doRequest_some (fs : FileSystem) (hu : p.state.url = some u) :
    ∃ c q, doRequest fs p = some (c, q) ∧ c ≠ .noRequest := by
  simp only [doRequest, hu]
  split
  · exact ⟨_, _, rfl, nofun⟩
  · split
    · exact ⟨_, _, rfl, nofun⟩
    · split
      · exact ⟨_, _, rfl, nofun⟩
      · exact ⟨_, _, rfl, nofun⟩

theorem doRequest_decided (fs : FileSystem) (p : Conn) :
    (doRequest fs p).map Prod.fst ≠ some .noRequest := by
  cases hu : p.state.url with
  | none =>
    simp only [doRequest, hu]
    exact nofun
  | some u =>
    obtain ⟨c, q, h, hc⟩ := doRequest_some fs hu
    rw [h]
    exact fun heq => hc (Option.some.inj heq)

/-- What `do_request` returns for the head `h`. -/
def fileCode (fs : FileSystem) (m : Members) (h : List UInt8) : Option HttpCode :=
  (doRequest fs { line := { readBuf := h, readIdx := 0, checkedIdx := 0, startLine := 0 }
                  state := m }).map Prod.fst

theorem fileCode_some (fs : FileSystem) {m : Members} (h : List UInt8) (hu : m.url = some u) :
    fileCode fs m h ≠ none := by
  obtain ⟨c, q, hc, _⟩ := doRequest_some fs
    (p := { line := { readBuf := h, readIdx := 0, checkedIdx := 0, startLine := 0 }, state := m })
    hu
  rw [fileCode, hc]
  exact nofun

theorem doRequest_head (fs : FileSystem) {m : Members} {h : List UInt8} (hq : q.state = m)
    (hu : m.url = some u) (hf : q.line.readBuf.take h.length = h) (ht : Terminated h u) :
    (doRequest fs q).map Prod.fst = fileCode fs m h := by
  refine doRequest_code hq hu ?_
  show cstr q.line.readBuf u = cstr h u
  rw [← List.take_append_drop h.length q.line.readBuf, hf, cstr_append ht]

end Lookup

/-! ## The calls -/

/-- The calls after `r`. -/
def serveOn (fs : FileSystem) (r : Option (HttpCode × Conn)) (chunks : List (List UInt8)) :
    Option (HttpCode × Conn) :=
  match r with
  | some (.noRequest, p) => serve fs p chunks
  | decided => decided

theorem serve_cons (fs : FileSystem) (p : Conn) (c : List UInt8) (chunks : List (List UInt8)) :
    serve fs p (c :: chunks) = serveOn fs (processRead fs (p.receive c)) chunks := rfl

theorem serveOn_decided {fs : FileSystem} {r : Option (HttpCode × Conn)}
    (h : r.map Prod.fst ≠ some .noRequest) (chunks : List (List UInt8)) :
    serveOn fs r chunks = r := by
  simp only [serveOn]
  split
  · exact absurd rfl h
  · rfl

theorem serveOn_nil (fs : FileSystem) (r : Option (HttpCode × Conn)) : serveOn fs r [] = r := by
  simp only [serveOn]
  split
  · rfl
  · rfl

theorem finish_undefined (fs : FileSystem) {r : Outcome × Conn} (h : r.1 = .undefined) :
    finish fs r = none := by
  obtain ⟨out, q⟩ := r
  have h : out = .undefined := h
  rw [h]
  rfl

/-- What has been read before and after each call, from `before` on. -/
def calls (before : List UInt8) : List (List UInt8) → List (List UInt8 × List UInt8)
  | [] => []
  | c :: chunks => (before, before ++ c) :: calls (before ++ c) chunks

section Calls

variable {before : List UInt8} {chunks : List (List UInt8)} {u : List UInt8 × List UInt8}

theorem calls_append (before : List UInt8) (xs ys : List (List UInt8)) :
    calls before (xs ++ ys) = calls before xs ++ calls (before ++ xs.flatten) ys := by
  induction xs generalizing before with
  | nil => simp [calls]
  | cons c xs ih => simp [calls, ih]

/-- A call is on a part of what is read in the end, and adds a chunk. -/
theorem mem_calls (h : u ∈ calls before chunks) :
    (∃ c, u.2 = u.1 ++ c) ∧ (∃ d, u.1 = before ++ d) ∧
      ∃ d, before ++ chunks.flatten = u.2 ++ d := by
  induction chunks generalizing before with
  | nil => cases h
  | cons c chunks ih =>
    rcases List.mem_cons.mp h with rfl | h
    · exact ⟨⟨c, rfl⟩, ⟨[], (List.append_nil _).symm⟩, ⟨chunks.flatten, by simp⟩⟩
    · obtain ⟨h1, ⟨d, hd⟩, ⟨e, he⟩⟩ := ih h
      refine ⟨h1, ⟨c ++ d, by rw [hd, List.append_assoc]⟩, ⟨e, ?_⟩⟩
      rw [← he, List.flatten_cons, List.append_assoc]

/-- The calls behind a head are the calls on what follows it. -/
theorem calls_drop {k : Nat} (hk : k ≤ before.length) (chunks : List (List UInt8)) :
    calls (before.drop k) chunks =
      (calls before chunks).map fun u => (u.1.drop k, u.2.drop k) := by
  induction chunks generalizing before with
  | nil => rfl
  | cons c chunks ih =>
    have hc : (before ++ c).drop k = before.drop k ++ c := List.drop_append_of_le_length hk
    have hkc : k ≤ (before ++ c).length := by
      rw [List.length_append]
      omega
    simp only [calls, List.map_cons, ← ih hkc, hc]

end Calls

/-! ## The calls on a body -/

/-- What the calls `us` on a body end in. -/
def bodyVerdict (k : Nat) (n : Int) : List (List UInt8 × List UInt8) → Outcome
  | [] => .code .noRequest
  | u :: us =>
    match bodyTest k n u.1 u.2 with
    | .code _ => bodyVerdict k n us
    | decided => decided

section BodyCalls

variable (fs : FileSystem) {h : List UInt8} {m : Members} {x₀ x : List UInt8} {q : Conn}

/-- The code that an outcome in the body means. -/
def verdictCode (fs : FileSystem) (m : Members) (h : List UInt8) : Outcome → Option HttpCode
  | .undefined => none
  | .doRequest => fileCode fs m h
  | .code c => some c

section Serve

variable {u : Nat} (hu : m.url = some u) (ht : Terminated h u) (hs : m.checkState = .content)
  (hn : 0 < m.contentLength)

include hu ht hs hn

/-- A call and what comes after it. -/
theorem body_step (ys : List (List UInt8)) (hq : InBody h m x₀ x q)
    (hfit : h.length + x.length < readBufferSize) (hpre : ∃ c, x = x₀ ++ c) (fuel : Nat)
    (hf : q.line.ahead.length + 2 ≤ fuel)
    (hrest : ∀ q', InBody h m x x q' → (serve fs q' ys).map Prod.fst =
      verdictCode fs m h (bodyVerdict h.length m.contentLength (calls x ys))) :
    (serveOn fs (finish fs (parseReadLoop fuel .lineOk q)) ys).map Prod.fst =
      verdictCode fs m h (bodyVerdict h.length m.contentLength ((x₀, x) :: calls x ys)) := by
  simp only [bodyVerdict]
  rcases body_call hq hs hn hfit hpre fuel hf with ⟨hb, ho⟩ | ⟨hb, q', ho, hst, hfr⟩ |
    ⟨hb, q', ho, hq'⟩
  · rw [finish_undefined fs ho, hb]
    rfl
  · have hcode := doRequest_head fs hst hu hfr ht
    rw [ho, hb]
    show (serveOn fs (doRequest fs q') ys).map Prod.fst = fileCode fs m h
    rw [serveOn_decided (doRequest_decided fs q'), hcode]
  · rw [ho, hb]
    exact hrest q' hq'

theorem body_rest (ys : List (List UInt8)) (hq : InBody h m x₀ x q)
    (hfit : h.length + (x ++ ys.flatten).length < readBufferSize) (hx : x₀ = x) :
    (serve fs q ys).map Prod.fst =
      verdictCode fs m h (bodyVerdict h.length m.contentLength (calls x ys)) := by
  subst hx
  induction ys generalizing x₀ q with
  | nil => rfl
  | cons c ys ih =>
    have hflat : x₀ ++ (c :: ys).flatten = x₀ ++ c ++ ys.flatten := by
      rw [List.flatten_cons, List.append_assoc]
    rw [hflat] at hfit
    have hfit' : h.length + (x₀ ++ c).length < readBufferSize := by
      rw [List.length_append] at hfit
      omega
    have hqc := hq.receive c (Nat.le_of_lt hfit')
    have hlen := LineBuf.ahead_length hqc.wf
    rw [serve_cons]
    exact body_step fs hu ht hs hn ys hqc hfit' ⟨c, rfl⟩ _ (by omega)
      fun q' hq' => ih hq' hfit

theorem body_serve (ys : List (List UInt8)) (hq : InBody h m x₀ x q)
    (hfit : h.length + (x ++ ys.flatten).length < readBufferSize) (hpre : ∃ c, x = x₀ ++ c)
    (fuel : Nat) (hf : q.line.ahead.length + 2 ≤ fuel) :
    (serveOn fs (finish fs (parseReadLoop fuel .lineOk q)) ys).map Prod.fst =
      verdictCode fs m h (bodyVerdict h.length m.contentLength ((x₀, x) :: calls x ys)) := by
  refine body_step fs hu ht hs hn ys hq ?_ hpre fuel hf fun q' hq' =>
    body_rest fs hu ht hs hn ys hq' hfit rfl
  rw [List.length_append] at hfit
  omega

end Serve

end BodyCalls

/-! ## When the calls on a body end as one call does -/

section Verdict

variable {k : Nat} {n : Int} {us : List (List UInt8 × List UInt8)}

/-- With a body that fits, nothing overflows: the calls accept when one of them does. -/
theorem bodyVerdict_small
    (hsmall : ∀ u ∈ us, n + k + lineRun u.1 + linesLength (u.2.drop (lineRun u.1)) < 2 ^ 31) :
    bodyVerdict k n us =
      if ∃ u ∈ us, n + lineRun u.1 ≤ u.2.length then .doRequest else .code .noRequest := by
  induction us with
  | nil => simp [bodyVerdict]
  | cons u us ih =>
    obtain ⟨hu, hus⟩ := List.forall_mem_cons.mp hsmall
    simp only [bodyVerdict, bodyTest]
    rw [if_neg (by omega)]
    by_cases hacc : n + lineRun u.1 ≤ u.2.length
    · have hex : ∃ v ∈ u :: us, n + lineRun v.1 ≤ v.2.length := ⟨u, List.mem_cons_self, hacc⟩
      rw [if_pos hacc, if_pos hex]
    · rw [if_neg hacc, if_neg (by omega)]
      simp only [ih hus, List.exists_mem_cons_iff, hacc, false_or]

/-- With a body that never comes, no call accepts: the calls go wrong when one of them does. -/
theorem bodyVerdict_big (hbig : ∀ u ∈ us, (u.2.length : Int) < n) :
    bodyVerdict k n us =
      if ∃ u ∈ us, 2 ^ 31 ≤ n + k + lineRun u.1 + linesLength (u.2.drop (lineRun u.1)) then
        .undefined
      else .code .noRequest := by
  induction us with
  | nil => simp [bodyVerdict]
  | cons u us ih =>
    obtain ⟨hu, hus⟩ := List.forall_mem_cons.mp hbig
    simp only [bodyVerdict, bodyTest]
    by_cases hover : 2 ^ 31 ≤ n + k + lineRun u.1 + linesLength (u.2.drop (lineRun u.1))
    · have hex : ∃ v ∈ u :: us,
          2 ^ 31 ≤ n + k + lineRun v.1 + linesLength (v.2.drop (lineRun v.1)) :=
        ⟨u, List.mem_cons_self, hover⟩
      rw [if_pos hex]
      by_cases hfirst : 2 ^ 31 ≤ n + k + lineRun u.1
      · rw [if_pos hfirst]
      · rw [if_neg hfirst, if_neg (by omega), if_pos hover]
    · rw [if_neg (by omega), if_neg (by omega), if_neg hover]
      simp only [ih hus, List.exists_mem_cons_iff, hover, false_or]

/-- After the last call everything has been read. -/
theorem last_call (x₀ x : List UInt8) (ys : List (List UInt8)) :
    ∃ u ∈ (x₀, x) :: calls x ys, u.2 = x ++ ys.flatten := by
  induction ys generalizing x₀ x with
  | nil => exact ⟨(x₀, x), List.mem_cons_self, (List.append_nil x).symm⟩
  | cons c ys ih =>
    obtain ⟨u, hu, h⟩ := ih x (x ++ c)
    refine ⟨u, List.mem_cons_of_mem _ hu, ?_⟩
    rw [h, List.flatten_cons, List.append_assoc]

section Whole

variable {x : List UInt8} {ys : List (List UInt8)} {u : List UInt8 × List UInt8}

/-- A call's bytes are a part of the whole, and a chunk more than before the call. -/
theorem body_part (hu : u ∈ ([], x) :: calls x ys) :
    (∃ c, u.2 = u.1 ++ c) ∧ ∃ d, x ++ ys.flatten = u.2 ++ d := by
  rcases List.mem_cons.mp hu with rfl | hu
  · exact ⟨⟨x, rfl⟩, ys.flatten, rfl⟩
  · obtain ⟨h1, _, h3⟩ := mem_calls hu
    exact ⟨h1, h3⟩

theorem body_part_length (hu : u ∈ ([], x) :: calls x ys) :
    u.1.length ≤ (x ++ ys.flatten).length ∧ u.2.length ≤ (x ++ ys.flatten).length := by
  obtain ⟨⟨c, hc⟩, d, hd⟩ := body_part hu
  have h1 := congrArg List.length hc
  have h2 := congrArg List.length hd
  have h3 : (u.1 ++ c).length = u.1.length + c.length := List.length_append
  have h4 : (u.2 ++ d).length = u.2.length + d.length := List.length_append
  omega

/-- How far the sum gets within a call. -/
theorem body_sum (hu : u ∈ ([], x) :: calls x ys) :
    (2 ^ 31 ≤ n + k + lineRun u.1 + linesLength (u.2.drop (lineRun u.1)) ↔
      2 ^ 31 ≤ n + k + lineRun u.1 ∨ 2 ^ 31 ≤ n + k + linesLength u.2) ∧
    linesLength u.2 ≤ linesLength (x ++ ys.flatten) := by
  obtain ⟨⟨c, hc⟩, d, hd⟩ := body_part hu
  have h1 := (lineRun_append u.1 c).2.1
  have h2 := (lineRun_append u.2 d).2.2
  rw [← hc] at h1
  rw [← hd] at h2
  omega

/-- A body that is there in the end is accepted in one call, and in the calls unless none of them
accepts. -/
theorem bodyVerdict_whole (hn : 0 < n) (hfit : k + (x ++ ys.flatten).length < readBufferSize)
    (hle : n ≤ (x ++ ys.flatten).length) :
    bodyVerdict k n (([], x) :: calls x ys) = bodyVerdict k n [([], x ++ ys.flatten)] ↔
      ¬ ∀ u ∈ ([], x) :: calls x ys, (u.2.length : Int) < lineRun u.1 + n := by
  have hsize : readBufferSize = 2048 := rfl
  have hrun : lineRun ([] : List UInt8) = 0 := rfl
  have hbound : ∀ u ∈ ([], x) :: calls x ys,
      n + k + lineRun u.1 + linesLength (u.2.drop (lineRun u.1)) < 2 ^ 31 := by
    intro u hu
    have h1 := lineRun_le u.1
    have h2 := linesLength_le (u.2.drop (lineRun u.1))
    rw [List.length_drop] at h2
    have h3 := body_part_length hu
    omega
  have hone : bodyVerdict k n [([], x ++ ys.flatten)] = .doRequest := by
    simp only [bodyVerdict, bodyTest, hrun]
    rw [if_neg (by omega), if_pos (by omega)]
  rw [hone, bodyVerdict_small hbound]
  by_cases hex : ∃ u ∈ ([], x) :: calls x ys, n + lineRun u.1 ≤ u.2.length
  · rw [if_pos hex]
    obtain ⟨u, hu, hacc⟩ := hex
    refine ⟨fun _ h => ?_, fun _ => rfl⟩
    have hlt := h u hu
    omega
  · rw [if_neg hex]
    refine ⟨fun h => (by cases h), fun h => absurd (fun u hu => ?_) h⟩
    by_contra hge
    exact hex ⟨u, hu, by omega⟩

/-- On a body that is not there in the end, the calls end like one call unless the sum overflows in
one of them only. -/
theorem bodyVerdict_part (hlt : (x ++ ys.flatten).length < n) :
    bodyVerdict k n (([], x) :: calls x ys) = bodyVerdict k n [([], x ++ ys.flatten)] ↔
      ¬ (n + k + linesLength (x ++ ys.flatten) < 2 ^ 31 ∧
          ∃ u ∈ ([], x) :: calls x ys, 2 ^ 31 ≤ n + k + lineRun u.1) := by
  have hrun : lineRun ([] : List UInt8) = 0 := rfl
  have hbig : ∀ u ∈ ([], x) :: calls x ys, (u.2.length : Int) < n := by
    intro u hu
    have h := body_part_length hu
    omega
  have hbig₁ : ∀ u ∈ [(([] : List UInt8), x ++ ys.flatten)], (u.2.length : Int) < n := by
    intro u hu
    rw [List.mem_singleton.mp hu]
    exact hlt
  have hone : (∃ u ∈ [(([] : List UInt8), x ++ ys.flatten)],
      2 ^ 31 ≤ n + k + lineRun u.1 + linesLength (u.2.drop (lineRun u.1))) ↔
      2 ^ 31 ≤ n + k + linesLength (x ++ ys.flatten) := by
    simp only [List.exists_mem_cons_iff, List.not_mem_nil, false_and, exists_false, or_false,
      hrun, List.drop_zero]
    omega
  rw [bodyVerdict_big hbig, bodyVerdict_big hbig₁]
  by_cases hall : 2 ^ 31 ≤ n + k + linesLength (x ++ ys.flatten)
  · -- the last call overflows too
    obtain ⟨v, hv, hlast⟩ := last_call [] x ys
    have hex : ∃ u ∈ ([], x) :: calls x ys,
        2 ^ 31 ≤ n + k + lineRun u.1 + linesLength (u.2.drop (lineRun u.1)) := by
      refine ⟨v, hv, (body_sum hv).1.mpr (.inr ?_)⟩
      rw [hlast]
      exact hall
    rw [if_pos hex, if_pos (hone.mpr hall)]
    exact ⟨fun _ h => by omega, fun _ => rfl⟩
  rw [if_neg fun h => hall (hone.mp h)]
  by_cases hex : ∃ u ∈ ([], x) :: calls x ys, 2 ^ 31 ≤ n + k + lineRun u.1
  · obtain ⟨u, hu, hover⟩ := hex
    have hex' : ∃ u ∈ ([], x) :: calls x ys,
        2 ^ 31 ≤ n + k + lineRun u.1 + linesLength (u.2.drop (lineRun u.1)) :=
      ⟨u, hu, (body_sum hu).1.mpr (.inl hover)⟩
    rw [if_pos hex']
    exact ⟨fun h => (nomatch h), fun h => absurd ⟨by omega, u, hu, hover⟩ h⟩
  · have hnone : ¬ ∃ u ∈ ([], x) :: calls x ys,
        2 ^ 31 ≤ n + k + lineRun u.1 + linesLength (u.2.drop (lineRun u.1)) := by
      rintro ⟨u, hu, hover⟩
      rcases (body_sum hu).1.mp hover with h | h
      · exact hex ⟨u, hu, h⟩
      · have hle := (body_sum (k := k) (n := n) hu).2
        omega
    rw [if_neg hnone]
    exact ⟨fun _ h => hex h.2, fun _ => rfl⟩

/-- The calls on a body that has `x` when the head ends and `x ++ ys.flatten` in the end, against
one call on all of it. -/
theorem bodyVerdict_eq (hn : 0 < n) (hfit : k + (x ++ ys.flatten).length < readBufferSize) :
    bodyVerdict k n (([], x) :: calls x ys) = bodyVerdict k n [([], x ++ ys.flatten)] ↔
      ¬ (n ≤ (x ++ ys.flatten).length ∧
          ∀ u ∈ ([], x) :: calls x ys, (u.2.length : Int) < lineRun u.1 + n) ∧
      ¬ ((x ++ ys.flatten).length < n ∧ n + k + linesLength (x ++ ys.flatten) < 2 ^ 31 ∧
          ∃ u ∈ ([], x) :: calls x ys, 2 ^ 31 ≤ n + k + lineRun u.1) := by
  by_cases hle : n ≤ (x ++ ys.flatten).length
  · rw [bodyVerdict_whole hn hfit hle]
    exact ⟨fun h => ⟨fun h' => h h'.2, fun h' => by omega⟩, fun h h' => h.1 ⟨hle, h'⟩⟩
  · have hlt : ((x ++ ys.flatten).length : Int) < n := by omega
    rw [bodyVerdict_part hlt]
    exact ⟨fun h => ⟨fun h' => hle h'.1, fun h' => h h'.2⟩, fun h h' => h.2 ⟨hlt, h'⟩⟩

end Whole

end Verdict

/-! ## The calls on a head -/

section HeadCalls

variable {fs : FileSystem} {p : Conn}

def Undecided (p : Conn) : Prop :=
  (run handleHead p).1 = .lineOpen ∨ (run handleHead p).1 = .lineBad

theorem undecided_or_stop (p : Conn) :
    Undecided p ∨ ∃ r, (run handleHead p).1 = .stop r := by
  cases h : (run handleHead p).1 with
  | lineOpen => exact .inl (.inl h)
  | lineBad => exact .inl (.inr h)
  | stop r => exact .inr ⟨r, rfl⟩

/-- A call that does not end the head returns `NO_REQUEST`. -/
theorem undecided_result {fuel : Nat} (h : Undecided p) :
    finish fs (headResult fuel (run handleHead p)) = some (.noRequest, (run handleHead p).2) := by
  cases hr : run handleHead p with
  | mk e q =>
    rw [Undecided, hr] at h
    rcases h with h | h
    · have h : e = .lineOpen := h
      subst h
      rfl
    · have h : e = .lineBad := h
      subst h
      rfl

/-- The calls up to the one in which the head ends, or all of them. -/
theorem serve_head (fs : FileSystem) (chunks : List (List UInt8)) (p : Conn) (hw : p.line.Wf)
    (hs : p.state.checkState ≠ .content) (hu : Undecided p) :
    (Undecided (p.receive chunks.flatten) ∧
      (serve fs (run handleHead p).2 chunks).map Prod.fst = some .noRequest) ∨
    ∃ xs c ys r fuel, chunks = xs ++ c :: ys ∧ Undecided (p.receive xs.flatten) ∧
      (run handleHead (p.receive (xs.flatten ++ c))).1 = .stop r ∧
      (run handleHead (p.receive (xs.flatten ++ c))).2.line.ahead.length + 2 ≤ fuel ∧
      serve fs (run handleHead p).2 chunks =
        serveOn fs (finish fs (headResult fuel (run handleHead (p.receive (xs.flatten ++ c)))))
          ys := by
  induction chunks generalizing p with
  | nil =>
    rw [List.flatten_nil, p.receive_nil]
    exact .inl ⟨hu, rfl⟩
  | cons c chunks ih =>
    have hwq := run_wf handleHead_local p hw
    have hsq : (run handleHead p).2.state.checkState ≠ .content := by
      refine run_not_content p hw hs fun h => ?_
      rcases hu with h' | h'
      · rw [h] at h'
        cases h'
      · rw [h] at h'
        cases h'
    have hwc : (p.receive c).line.Wf := LineBuf.receive_wf hw c
    have hwqc : ((run handleHead p).2.receive c).line.Wf := LineBuf.receive_wf hwq c
    have hsc : (p.receive c).state.checkState ≠ .content := hs
    obtain ⟨fuel, hf, hread⟩ := parseRead_head ((run handleHead p).2.receive c) hwqc hsq
    rw [← run_receive_undecided handleHead_local c p hw hu] at hread hf
    rw [serve_cons, processRead, hread]
    rcases undecided_or_stop (p.receive c) with huc | ⟨r, hr⟩
    · rw [undecided_result huc]
      show (_ ∧ (serve fs (run handleHead (p.receive c)).2 chunks).map Prod.fst = _) ∨
        ∃ xs d ys r fuel, _ ∧ _ ∧ _ ∧ _ ∧ serve fs (run handleHead (p.receive c)).2 chunks = _
      rcases ih (p.receive c) hwc hsc huc with ⟨h1, h2⟩ | ⟨xs, d, ys, r, fuel', h1, h2, h3, h4, h5⟩
      · rw [Parser.receive_receive hw] at h1
        exact .inl ⟨h1, h2⟩
      · rw [Parser.receive_receive hw] at h2
        rw [Parser.receive_receive hw, ← List.append_assoc] at h3 h4 h5
        exact .inr ⟨c :: xs, d, ys, r, fuel', by rw [h1]; rfl, h2, h3, h4, h5⟩
    · refine .inr ⟨[], c, chunks, r, fuel, rfl, ?_, hr, hf, rfl⟩
      rw [List.flatten_nil, p.receive_nil]
      exact hu

end HeadCalls

end Unpvol1.HttpConn
