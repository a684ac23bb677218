import Mathlib.Algebra.BigOperators.Group.List.Basic
import Unpvol1.Lib.Machine
import Unpvol1.Lib.Numeral
import Unpvol1.Lib.Socket

/-!
# Unp.WebChild

`web_child` (`30chp/serv08.c`) and the client of `30chp/client.c` on one connection: requests as
decimal lines one way, that many bytes back. `web_child` parses whatever one `read` returned, in a
buffer that keeps the bytes of earlier reads.

* `turn`     — one turn of the loop of `web_child`.
* `machine`  — a request, a turn with any part of the bytes sent, a `read` of `readn`.
* `Spelled`  — the buffer spells the request that is still to be answered.
* `answered_iff` — the requests are answered exactly just when every turn finds its request spelled.
-/

namespace Unpvol1
namespace WebChild

def MAXLINE : Nat := 1024

def MAXN : Nat := 16384

inductive Turn where
  /-- The client has closed. -/
  | closed
  | exit (line : List UInt8)
  | writen (line : List UInt8) (ntowrite : Nat)

/-- `atol` on `line`, and the test of its result. Behind `line`, which nobody terminates, lies
`beyond`. -/
def parse (line beyond : List UInt8) : Turn :=
  let ntowrite := intOfLong (atol (cstr (line ++ beyond) 0))
  if ntowrite ≤ 0 ∨ ntowrite > MAXN then .exit line else .writen line ntowrite.toNat

def turn (line beyond : List UInt8) : RecvResult → Turn
  | .got [] => .closed
  | .got bs => parse (overwrite line 0 bs) beyond
  | .err _ => parse line beyond

inductive Server where
  | serving
  | returned
  | exited
deriving DecidableEq

/-- The number of bytes of one request. -/
abbrev Request := { n : Nat // 1 ≤ n ∧ n ≤ MAXN }

/-- The text the client writes. -/
def request (n : Nat) : List UInt8 := decimal n ++ [10]

/-- `unread` are the bytes of requests web_child has not read; of the bytes it wrote back
(`replies`, one entry a turn), the client has received `received` and `inTransit` are on the way.
`nleft` is what `readn` still waits for. -/
structure State where
  line : List UInt8
  server : Server
  replies : List Nat
  unread : List UInt8
  inTransit : Nat
  received : Nat
  todo : List Request
  asked : List Nat
  nleft : Nat

inductive Step where
  /-- The client writes its next request. -/
  | request
  /-- web_child reads `f` of the bytes sent. -/
  | read (f : Nat) (beyond : List UInt8)
  /-- web_child reads end of file. -/
  | eof
  /-- A `read` of `readn` returns `m` bytes. -/
  | readn (m : Nat)
deriving DecidableEq

/-- The state after a turn that read the bytes up to `unread`. -/
def State.took (s : State) (unread : List UInt8) : Turn → State
  | .closed => { s with server := .returned, unread := unread }
  | .exit line => { s with line := line, server := .exited, unread := unread }
  | .writen line ntowrite =>
    { s with
      line := line
      replies := s.replies ++ [ntowrite]
      unread := unread
      inTransit := s.inTransit + ntowrite }

def step (s : State) : Step → State
  | .request =>
    match s.todo with
    | [] => s
    | n :: todo =>
      { s with
        unread := s.unread ++ request n
        todo := todo
        asked := s.asked ++ [n.1]
        nleft := n }
  | .read f beyond =>
    s.took (s.unread.drop f) (turn s.line beyond (recv MAXLINE (.data (s.unread.take f))))
  | .eof => s.took s.unread (turn s.line [] (recv MAXLINE (.data [])))
  | .readn m =>
    { s with inTransit := s.inTransit - m, received := s.received + m, nleft := s.nleft - m }

/-- A request is sent once the bytes of the one before are received; a `read` returns any part of
what was sent. -/
def ok (s : State) : Step → Prop
  | .request => s.todo ≠ [] ∧ s.nleft = 0
  | .read f beyond =>
    s.server = .serving ∧ (0 < f ∧ f ≤ s.unread.length ∧ f ≤ MAXLINE) ∧ 0 ∈ beyond
  | .eof => s.server = .serving ∧ s.todo = [] ∧ s.nleft = 0 ∧ s.unread = []
  | .readn m => 0 < m ∧ m ≤ s.nleft ∧ m ≤ s.inTransit

instance (s : State) : (i : Step) → Decidable (ok s i)
  | .request => inferInstanceAs (Decidable (s.todo ≠ [] ∧ s.nleft = 0))
  | .read f beyond =>
    inferInstanceAs (Decidable
      (s.server = .serving ∧ (0 < f ∧ f ≤ s.unread.length ∧ f ≤ MAXLINE) ∧ 0 ∈ beyond))
  | .eof =>
    inferInstanceAs (Decidable
      (s.server = .serving ∧ s.todo = [] ∧ s.nleft = 0 ∧ s.unread = []))
  | .readn m => inferInstanceAs (Decidable (0 < m ∧ m ≤ s.nleft ∧ m ≤ s.inTransit))

def machine : Machine State Step := ⟨step, ok⟩

instance (s : State) (i : Step) : Decidable (machine.ok s i) := inferInstanceAs (Decidable (ok s i))

/-- What `char line[MAXLINE]` may contain on entry. -/
abbrev Line := { line : List UInt8 // line.length = MAXLINE }

def start (line : Line) (todo : List Request) : State where
  line := line
  server := .serving
  replies := []
  unread := []
  inTransit := 0
  received := 0
  todo := todo
  asked := []
  nleft := 0

/-- The requests are answered: web_child has written back exactly what was asked, one request at
most excepted, and that one only while bytes of it are unread; `readn` gets the bytes it waits for,
and nothing is left over when it returns. -/
structure Answered (s : State) : Prop where
  alive : s.server ≠ .exited
  exact : s.replies = s.asked ∨ ∃ n, s.asked = s.replies ++ [n]
  prompt : s.unread = [] → s.replies = s.asked ∧ s.inTransit = s.nleft
  atEnd : s.nleft = 0 → s.replies = s.asked ∧ s.inTransit = 0

/-- The bytes read, followed by those left in `line` by earlier reads and what lies behind it,
start with a numeral for the one request that is still to be answered. -/
def Spelled (s : State) : Step → Prop
  | .read f beyond =>
    ∃ n : Nat, s.asked = s.replies ++ [n] ∧
      Spells (cstr (overwrite s.line 0 (s.unread.take f) ++ beyond) 0) n
  | _ => True

/-! ## One turn -/

theorem recv_take {s : State} {f : Nat} (hf : f ≤ MAXLINE) :
    recv MAXLINE (.data (s.unread.take f)) = .got (s.unread.take f) := by
  have hlen : (s.unread.take f).length ≤ MAXLINE := Nat.le_trans (List.length_take_le _ _) hf
  rw [recv, List.take_of_length_le hlen]

theorem turn_got {line beyond bs : List UInt8} (h : bs ≠ []) :
    turn line beyond (.got bs) = parse (overwrite line 0 bs) beyond := by
  cases bs with
  | nil => exact absurd rfl h
  | cons b bs => rfl

theorem parse_eq_writen {line beyond : List UInt8} {n : Nat} (hlo : 1 ≤ n) (hhi : n ≤ MAXN)
    (h : Spells (cstr (line ++ beyond) 0) n) : parse line beyond = .writen line n := by
  unfold parse
  rw [(intOfLong_atol_iff (by omega)).mpr h]
  simp only
  rw [if_neg (by omega), Int.toNat_natCast]

/-- A turn that does not exit writes as many bytes as the text spells. -/
theorem parse_cases (line beyond : List UInt8) :
    parse line beyond = .exit line ∨
      ∃ n : Nat, parse line beyond = .writen line n ∧ Spells (cstr (line ++ beyond) 0) n := by
  unfold parse
  simp only
  split
  · exact .inl rfl
  · rename_i h
    refine .inr ⟨_, rfl, ?_⟩
    rw [← intOfLong_atol_iff (by omega)]
    omega

/-! ## The bytes on the way -/

/-- Replies and requests, counted in bytes. -/
structure Counted (s : State) : Prop where
  todo : ∀ n ∈ s.asked, 1 ≤ n ∧ n ≤ MAXN
  written : s.replies.sum = s.received + s.inTransit
  wanted : s.asked.sum = s.received + s.nleft

theorem Counted.took {s : State} (h : Counted s) (unread : List UInt8) (t : Turn) :
    Counted (s.took unread t) := by
  cases t with
  | closed => exact ⟨h.todo, h.written, h.wanted⟩
  | exit line => exact ⟨h.todo, h.written, h.wanted⟩
  | writen line ntowrite =>
    refine ⟨h.todo, ?_, h.wanted⟩
    simp only [State.took, List.sum_append, List.sum_singleton, h.written]
    omega

theorem counted_step {s : State} {i : Step} (h : Counted s) (hok : machine.ok s i) :
    Counted (machine.step s i) := by
  cases i with
  | request =>
    obtain ⟨hne, hidle⟩ := hok
    have hwanted := h.wanted
    cases htodo : s.todo with
    | nil => exact absurd htodo hne
    | cons n todo =>
      simp only [machine, step, htodo]
      refine ⟨?_, h.written, ?_⟩
      · intro m hm
        rcases List.mem_append.mp hm with hm | hm
        · exact h.todo m hm
        · rw [List.mem_singleton.mp hm]
          exact n.2
      · simp only [List.sum_append, List.sum_singleton]
        omega
  | read f beyond => exact h.took _ _
  | eof => exact h.took s.unread .closed
  | readn m =>
    obtain ⟨_, hleft, htransit⟩ := hok
    have hwritten := h.written
    have hwanted := h.wanted
    refine ⟨h.todo, ?_, ?_⟩
    · simp only [machine, step]
      omega
    · simp only [machine, step]
      omega

/-- Once everything asked is answered, what is on the way is what `readn` waits for. -/
theorem Counted.answered {s : State} (h : Counted s) (hs : s.server ≠ .exited)
    (he : s.replies = s.asked) : Answered s := by
  have hwritten := h.written
  have hwanted := h.wanted
  rw [he] at hwritten
  have htransit : s.inTransit = s.nleft := by omega
  exact ⟨hs, .inl he, fun _ => ⟨he, htransit⟩, fun h0 => ⟨he, htransit.trans h0⟩⟩

/-- `readn` cannot return while a request is unanswered. -/
theorem Counted.waits {s : State} (h : Counted s) {n : Nat} (he : s.asked = s.replies ++ [n]) :
    s.inTransit < s.nleft := by
  have hwritten := h.written
  have hwanted := h.wanted
  have hn : 1 ≤ n := (h.todo n (by simp [he])).1
  rw [he, List.sum_append, List.sum_singleton] at hwanted
  omega

/-! ## What a step keeps -/

theorem answered_request {s : State} (h : Answered s) (hc : Counted s)
    (hok : machine.ok s .request) : Answered (machine.step s .request) := by
  have hc' := counted_step hc hok
  obtain ⟨hne, hidle⟩ := hok
  obtain ⟨he, _⟩ := h.atEnd hidle
  cases htodo : s.todo with
  | nil => exact absurd htodo hne
  | cons n todo =>
    simp only [machine, step, htodo] at hc' ⊢
    have hasked : s.asked ++ [n.1] = s.replies ++ [n.1] := by rw [he]
    refine ⟨h.alive, .inr ⟨n, hasked⟩, ?_, ?_⟩
    · intro hnil
      simp [request] at hnil
    · intro hzero
      have hn : 1 ≤ n.1 := n.2.1
      have hz : n.1 = 0 := hzero
      omega

theorem answered_readn {s : State} (h : Answered s) (hc : Counted s) {m : Nat}
    (hok : machine.ok s (.readn m)) : Answered (machine.step s (.readn m)) := by
  have hc' := counted_step hc hok
  obtain he | ⟨n, he⟩ := h.exact
  · exact hc'.answered h.alive he
  · have hwaits := hc'.waits he
    refine ⟨h.alive, .inr ⟨n, he⟩, ?_, ?_⟩
    · intro hnil
      have hr := (h.prompt hnil).1
      rw [he] at hr
      simp at hr
    · intro hzero
      omega

/-- A turn keeps the requests answered just when it finds its request spelled. -/
theorem answered_read_iff {s : State} (h : Answered s) (hc : Counted s) {f : Nat}
    {beyond : List UInt8} (hok : machine.ok s (.read f beyond)) :
    Answered (machine.step s (.read f beyond)) ↔ Spelled s (.read f beyond) := by
  have hc' := counted_step hc hok
  obtain ⟨hserving, ⟨hpos, hlen, hmax⟩, hnul⟩ := hok
  have hne : s.unread.take f ≠ [] := by
    refine List.ne_nil_of_length_pos ?_
    rw [List.length_take]
    omega
  have hturn : turn s.line beyond (recv MAXLINE (.data (s.unread.take f))) =
      parse (overwrite s.line 0 (s.unread.take f)) beyond := by
    rw [recv_take hmax, turn_got hne]
  simp only [machine, step, hturn] at hc' ⊢
  constructor
  · intro ha
    rcases parse_cases (overwrite s.line 0 (s.unread.take f)) beyond with hexit | ⟨n, hw, hn⟩
    · rw [hexit] at ha
      exact absurd rfl ha.alive
    · rw [hw] at ha
      refine ⟨n, ?_, hn⟩
      have hexact : s.replies ++ [n] = s.asked ∨ ∃ m, s.asked = s.replies ++ [n] ++ [m] := ha.exact
      rcases hexact with he | ⟨m, he⟩
      · exact he.symm
      · rcases h.exact with he' | ⟨k, he'⟩
        · rw [he'] at he
          simp at he
        · rw [he', List.append_assoc] at he
          simp at he
  · rintro ⟨n, he, hn⟩
    obtain ⟨hlo, hhi⟩ := hc.todo n (by simp [he])
    rw [parse_eq_writen hlo hhi hn] at hc' ⊢
    exact hc'.answered (by simp [State.took, hserving]) he.symm

theorem answered_step_iff {s : State} {i : Step} (hc : Counted s) (hok : machine.ok s i)
    (h : Answered s) : Answered (machine.step s i) ↔ Spelled s i := by
  cases i with
  | request => exact iff_of_true (answered_request h hc hok) trivial
  | read f beyond => exact answered_read_iff h hc hok
  | eof =>
    obtain ⟨_, _, hidle, _⟩ := hok
    refine iff_of_true ?_ trivial
    exact (hc.took s.unread .closed).answered (by simp [State.took]) (h.atEnd hidle).1
  | readn m => exact iff_of_true (answered_readn h hc hok) trivial

/-! ## Runs -/

theorem start_counted (line : Line) (todo : List Request) : Counted (start line todo) where
  todo := by simp [start]
  written := rfl
  wanted := rfl

theorem start_answered (line : Line) (todo : List Request) : Answered (start line todo) :=
  (start_counted line todo).answered (by simp [start]) rfl

/-- In every state of a run the requests are answered exactly, just when every turn of web_child
finds the outstanding request spelled. -/
theorem answered_iff (line : Line) (todo : List Request) (is : List Step)
    (hv : machine.Valid (start line todo) is) :
    machine.Always Answered (start line todo) is ↔ machine.Each Spelled (start line todo) is :=
  Machine.always_iff_each (fun _ _ hc hok => counted_step hc hok)
    (fun _ _ hc hok h => answered_step_iff hc hok h) (start_counted line todo)
    (start_answered line todo) hv

def blank : Line := ⟨List.replicate MAXLINE 0, List.length_replicate⟩

def ten : Request := ⟨10, by decide⟩

/-- Two requests, each read whole; the first reply arrives in two pieces. -/
def twoRequests : List Step :=
  [.request, .read 3 [0], .readn 4, .readn 6, .request, .read 3 [0], .readn 10, .eof]

theorem answered_iff_twoRequests :
    machine.Always Answered (start blank [ten, ten]) twoRequests ↔
      machine.Each Spelled (start blank [ten, ten]) twoRequests :=
  answered_iff blank [ten, ten] twoRequests (by decide +kernel)

/-- A request of which the first read returns one digit. The second returns the other, a 0. -/
def splitRequest : List Step := [.request, .read 1 [0], .readn 1, .read 2 [0]]

/-- One byte is written back for the ten, and then web_child exits. -/
theorem not_answered :
    machine.Valid (start blank [ten]) splitRequest ∧
      (machine.run (start blank [ten]) splitRequest).replies = [1] ∧
      (machine.run (start blank [ten]) splitRequest).server = .exited ∧
      ¬machine.Always Answered (start blank [ten]) splitRequest := by
  have hexited : (machine.run (start blank [ten]) splitRequest).server = .exited := by
    decide +kernel
  refine ⟨by decide +kernel, by decide +kernel, hexited, ?_⟩
  intro h
  exact h.last.alive hexited

/-! ## Reads that return everything -/

def Whole (s : State) : Step → Prop
  | .read f _ => f = s.unread.length
  | _ => True

/-- Nothing is unread, or all of the outstanding request. -/
def Together (s : State) : Prop :=
  s.unread = [] ∨ ∃ n, s.asked = s.replies ++ [n] ∧ s.unread = request n

theorem cstr_request (n : Nat) (rest : List UInt8) :
    cstr (request n ++ rest) 0 = decimal n ++ 10 :: cut rest := by
  have hdigits : ∀ b ∈ decimal n, decide (b ≠ 0) = true := by
    intro b hb
    have hdigit := isDigit_of_mem_decimal hb
    refine decide_eq_true fun hz => ?_
    rw [hz] at hdigit
    cases hdigit
  rw [cstr, List.drop_zero, cut, request, List.append_assoc,
    List.takeWhile_append_of_pos hdigits]
  rfl

/-- A read of the whole request spells it, whatever the line held before. -/
theorem spelled_of_whole {s : State} (hc : Counted s) (ht : Together s) {i : Step}
    (hok : machine.ok s i) (hw : Whole s i) : Spelled s i := by
  cases i with
  | request => exact trivial
  | eof => exact trivial
  | readn m => exact trivial
  | read f beyond =>
    obtain ⟨_, ⟨hpos, hlen, _⟩, _⟩ := hok
    have hf : f = s.unread.length := hw
    rcases ht with hnil | ⟨n, he, hunread⟩
    · rw [hf, hnil] at hpos
      cases hpos
    · obtain ⟨hlo, hhi⟩ := hc.todo n (by simp [he])
      have hmax : n < 2 ^ 31 := Nat.lt_of_le_of_lt hhi (by decide)
      have htext : overwrite s.line 0 (s.unread.take f) ++ beyond =
          request n ++ (s.line.drop (request n).length ++ beyond) := by
        rw [hf, List.take_length, hunread, overwrite]
        simp
      refine ⟨n, he, ?_⟩
      rw [htext, cstr_request]
      exact spells_decimal hlo hmax (by simp [isDigit])

theorem together_step {s : State} (ha : Answered s) (ht : Together s) {i : Step}
    (hok : machine.ok s i) (hw : Whole s i) : Together (machine.step s i) := by
  cases i with
  | request =>
    obtain ⟨hne, hidle⟩ := hok
    obtain ⟨he, _⟩ := ha.atEnd hidle
    have hnil : s.unread = [] := by
      rcases ht with hnil | ⟨n, hasked, _⟩
      · exact hnil
      · simp [he] at hasked
    cases htodo : s.todo with
    | nil => exact absurd htodo hne
    | cons n todo => exact .inr ⟨n, by simp [machine, step, htodo, he], by
        simp [machine, step, htodo, hnil]⟩
  | read f beyond =>
    have hf : f = s.unread.length := hw
    have hdrop : s.unread.drop f = [] := by rw [hf, List.drop_length]
    simp only [machine, step, hdrop]
    cases turn s.line beyond (recv MAXLINE (.data (s.unread.take f))) <;> exact .inl rfl
  | eof => exact .inl hok.2.2.2
  | readn m => exact ht

/-- Whenever every read of web_child returns all that was sent, all requests are answered. -/
theorem answered_of_whole (line : Line) (todo : List Request) {is : List Step}
    (hv : machine.Valid (start line todo) is)
    (hw : machine.Each Whole (start line todo) is) :
    machine.Always Answered (start line todo) is := by
  have hinv : machine.Always (fun s => (Counted s ∧ Answered s) ∧ Together s)
      (start line todo) is := by
    refine Machine.always_inv_of_each (fun s i h hok hq => ?_)
      ⟨⟨start_counted line todo, start_answered line todo⟩, .inl rfl⟩ hv hw
    obtain ⟨⟨hc, ha⟩, ht⟩ := h
    have hs := spelled_of_whole hc ht hok hq
    exact ⟨⟨counted_step hc hok, (answered_step_iff hc hok ha).mpr hs⟩,
      together_step ha ht hok hq⟩
  exact hinv.imp fun _ h => h.1.2

end WebChild
end Unpvol1
