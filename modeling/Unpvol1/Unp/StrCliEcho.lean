import Unpvol1.Lib.Progress
import Unpvol1.Unp.EchoPath
import Unpvol1.Unp.StrCli

/-!
# Unp.StrCliEcho

The non-blocking `str_cli` (`16chp/strclinonb.c`) against the echo server: the calls of the client
act on standard input and on the path through `str_echo`, and are answered as these stand. Client
and server take their steps in any order.

* `Did`      — what a step can do.
* `Inv`      — where the bytes are, and what each place of the loop knows of the connection.
* `toGo`     — how far everything still has to go; `phase` counts the steps up to the next byte that
  moves. Together they go down at every step.
* `session_conserves` — no byte is lost on the way there and back.
* `session_ends`      — every schedule ends, with the return of `str_cli`.
-/

namespace Unpvol1
namespace StrCliEcho

open StrCli

/-- The client, what standard input has still to bring, and the path through the server. -/
structure State where
  client : StrCli.State
  stdin : List UInt8
  path : EchoPath.State

inductive Event where
  | client (e : StrCli.Event)
  | server (e : EchoPath.Event)

/-- A `read` brings a first part of `l`, or nothing where `end` holds. -/
def Brings (l : List UInt8) (atEnd : Prop) : RecvOutcome → Prop
  | .data bs => bs <+: l ∧ (bs = [] → atEnd)
  | .fail _ => False

section
variable (sock : Sockfd)

/-- What a call of the client does to standard input and to the connection. -/
def effect (s : State) : Act → State
  | .io (.recv fd _ (.got bs)) =>
    if fd = STDIN_FILENO then { s with stdin := s.stdin.drop bs.length }
    else if fd = sock.fd then { s with path := s.path.recv bs.length }
    else s
  | .io (.send fd data (.took n)) =>
    if fd = sock.fd then { s with path := s.path.send (data.take n) } else s
  | .io _ => s
  | .shutdown _ => { s with path := s.path.shutdown }

/-- The calls a step of the client makes. -/
def newActs (c : StrCli.State) (e : StrCli.Event) : List Act :=
  (StrCli.step sock c e).log.drop c.log.length

def step (s : State) : Event → State
  | .client e =>
    (newActs sock s.client e).foldl (effect sock) { s with client := StrCli.step sock s.client e }
  | .server e => { s with path := EchoPath.step s.path e }

/-- The answers to the client's calls. No call is interrupted and no `read` fails: `select` waits
until something is ready and reports the socket as it is; standard input and output may take their
time. Standard output may only fail to take what was not reported, which is what has just come from
the socket. -/
def Answers (s : State) : StrCli.Event → Prop
  | .select none => False
  | .select (some (rset, wset)) =>
    (rset ≠ ∅ ∨ wset ≠ ∅) ∧
    (sock.fd ∈ rset ↔ sock.fd ∈ readSet sock s.client ∧ s.path.down.Readable) ∧
    (sock.fd ∈ wset ↔ sock.fd ∈ writeSet sock s.client ∧ 0 < s.path.up.room)
  | .readStdin o shut =>
    shut = true ∧ (STDIN_FILENO ∈ s.client.rset → Brings s.stdin (s.stdin = []) o)
  | .readSocket o =>
    sock.fd ∈ s.client.rset → Brings s.path.down.data s.path.down.AtEnd o
  | .writeStdout (.take n) => 0 < n
  | .writeStdout (.fail e) => STDOUT_FILENO ∈ s.client.wset → e = .again ∧ sock.fd ∈ s.client.rset
  | .writeSocket (.take n) shut => shut = true ∧ 0 < n ∧ n ≤ s.path.up.room
  | .writeSocket (.fail e) shut =>
    shut = true ∧ (sock.fd ∈ s.client.wset → e = .again ∧ s.path.up.room = 0)

def ok (s : State) : Event → Prop
  | .client e => StrCli.ok sock s.client e ∧ Answers sock s e
  | .server e => EchoPath.ok s.path e

def machine : Machine State Event := ⟨step sock, ok sock⟩

instance (l : List UInt8) (atEnd : Prop) [Decidable atEnd] :
    (o : RecvOutcome) → Decidable (Brings l atEnd o)
  | .data bs => inferInstanceAs (Decidable (bs <+: l ∧ (bs = [] → atEnd)))
  | .fail _ => inferInstanceAs (Decidable False)

instance (s : State) : (e : StrCli.Event) → Decidable (Answers sock s e)
  | .select none => inferInstanceAs (Decidable False)
  | .select (some (rset, wset)) => inferInstanceAs (Decidable ((rset ≠ ∅ ∨ wset ≠ ∅) ∧
      (sock.fd ∈ rset ↔ sock.fd ∈ readSet sock s.client ∧ s.path.down.Readable) ∧
      (sock.fd ∈ wset ↔ sock.fd ∈ writeSet sock s.client ∧ 0 < s.path.up.room)))
  | .readStdin o shut => inferInstanceAs (Decidable (shut = true ∧
      (STDIN_FILENO ∈ s.client.rset → Brings s.stdin (s.stdin = []) o)))
  | .readSocket o => inferInstanceAs (Decidable (sock.fd ∈ s.client.rset →
      Brings s.path.down.data s.path.down.AtEnd o))
  | .writeStdout (.take n) => inferInstanceAs (Decidable (0 < n))
  | .writeStdout (.fail e) => inferInstanceAs (Decidable (STDOUT_FILENO ∈ s.client.wset →
      e = .again ∧ sock.fd ∈ s.client.rset))
  | .writeSocket (.take n) shut => inferInstanceAs (Decidable (shut = true ∧ 0 < n ∧
      n ≤ s.path.up.room))
  | .writeSocket (.fail e) shut => inferInstanceAs (Decidable (shut = true ∧
      (sock.fd ∈ s.client.wset → e = .again ∧ s.path.up.room = 0)))

instance (s : State) : (e : Event) → Decidable ((machine sock).ok s e)
  | .client e => inferInstanceAs (Decidable (StrCli.ok sock s.client e ∧ Answers sock s e))
  | .server e => inferInstanceAs (Decidable (EchoPath.ok s.path e))

def start (toMem frMem : Memory) (capUp capDown : Nat) (input : List UInt8) : State where
  client := StrCli.start toMem frMem
  stdin := input
  path := EchoPath.start capUp capDown

/-! ## What a step can do -/

/-- How much `to` or `fr` holds. -/
def held (b : Buffer) : Nat := b.iptr - b.optr

inductive Did (s : State) : State → Prop where
  | server (e : EchoPath.Event) (hok : EchoPath.ok s.path e) :
      Did s { s with path := EchoPath.step s.path e }
  | select (rset wset : Finset Int) (hpc : s.client.pc = .select)
      (hne : rset ≠ ∅ ∨ wset ≠ ∅)
      (hr : rset ⊆ readSet sock s.client) (hw : wset ⊆ writeSet sock s.client)
      (hread : sock.fd ∈ rset → s.path.down.Readable)
      (hwrite : sock.fd ∈ wset → 0 < s.path.up.room) :
      Did s { s with client := { s.client with rset := rset, wset := wset, pc := .readStdin } }
  | passStdin (hpc : s.client.pc = .readStdin) (h : STDIN_FILENO ∉ s.client.rset) :
      Did s { s with client := { s.client with pc := .readSocket } }
  | eof (len : Nat) (hpc : s.client.pc = .readStdin) (hend : s.stdin = [])
      (heof : s.client.stdineof = false)
      (path : EchoPath.State) (hpath : path = if s.client.toBuf.optr = s.client.toBuf.iptr then
        s.path.shutdown else s.path)
      (acts : List Act) (hacts : acts = if s.client.toBuf.optr = s.client.toBuf.iptr then
        [.shutdown sock.fd] else []) :
      Did s { s with
        client := { s.client with
          pc := .readSocket
          stdineof := true
          log := s.client.log ++ .io (.recv STDIN_FILENO len (.got [])) :: acts }
        path := path }
  | fill (len : Nat) (bs : List UInt8) (hpc : s.client.pc = .readStdin) (hbs : bs ≠ [])
      (hpre : bs <+: s.stdin) (hlen : s.client.toBuf.iptr + bs.length ≤ MAXLINE)
      (heof : s.client.stdineof = false) :
      Did s { s with
        client := { s.client with
          pc := .readSocket
          toBuf := s.client.toBuf.fill bs
          wset := insert sock.fd s.client.wset
          log := s.client.log ++ [.io (.recv STDIN_FILENO len (.got bs))] }
        stdin := s.stdin.drop bs.length }
  | passSocket (hpc : s.client.pc = .readSocket) (h : sock.fd ∉ s.client.rset) :
      Did s { s with client := { s.client with pc := .writeStdout } }
  | ended (len : Nat) (hpc : s.client.pc = .readSocket) (hend : s.path.down.AtEnd) :
      Did s { s with
        client := { s.client with
          pc := if s.client.stdineof then .returned else .exited
          log := s.client.log ++ [.io (.recv sock.fd len (.got []))] }
        path := s.path.recv 0 }
  | fetch (len : Nat) (bs : List UInt8) (hpc : s.client.pc = .readSocket) (hbs : bs ≠ [])
      (hpre : bs <+: s.path.down.data) (hlen : s.client.frBuf.iptr + bs.length ≤ MAXLINE) :
      Did s { s with
        client := { s.client with
          pc := .writeStdout
          frBuf := s.client.frBuf.fill bs
          wset := insert STDOUT_FILENO s.client.wset
          log := s.client.log ++ [.io (.recv sock.fd len (.got bs))] }
        path := s.path.recv bs.length }
  | passStdout (acts : List Act) (hpc : s.client.pc = .writeStdout)
      (hacts : acts = [] ∨
        acts = [.io (.send STDOUT_FILENO s.client.frBuf.pending (.err .again))])
      (h : STDOUT_FILENO ∈ s.client.wset → 0 < held s.client.frBuf → sock.fd ∈ s.client.rset) :
      Did s { s with client := { s.client with pc := .writeSocket, log := s.client.log ++ acts } }
  | print (n : Nat) (hpc : s.client.pc = .writeStdout) (hpos : 0 < n)
      (hn : n ≤ held s.client.frBuf) :
      Did s { s with client := { s.client with
        pc := .writeSocket
        frBuf := s.client.frBuf.drain n
        log := s.client.log ++
          [.io (.send STDOUT_FILENO s.client.frBuf.pending (.took n))] } }
  | passWrite (acts : List Act) (hpc : s.client.pc = .writeSocket)
      (hacts : acts = [] ∨ acts = [.io (.send sock.fd s.client.toBuf.pending (.err .again))])
      (h : sock.fd ∈ s.client.wset → 0 < held s.client.toBuf → s.path.up.room = 0) :
      Did s { s with client := { s.client with pc := .select, log := s.client.log ++ acts } }
  | push (n : Nat) (hpc : s.client.pc = .writeSocket) (hpos : 0 < n)
      (hn : n ≤ held s.client.toBuf) (hroom : n ≤ s.path.up.room)
      (path : EchoPath.State)
      (hpath : path = if s.client.toBuf.optr + n = s.client.toBuf.iptr ∧ s.client.stdineof = true
        then (s.path.send (s.client.toBuf.pending.take n)).shutdown
        else s.path.send (s.client.toBuf.pending.take n))
      (acts : List Act)
      (hacts : acts = if s.client.toBuf.optr + n = s.client.toBuf.iptr ∧
        s.client.stdineof = true then [.shutdown sock.fd] else []) :
      Did s { s with
        client := { s.client with
          pc := .select
          toBuf := s.client.toBuf.drain n
          log := s.client.log ++
            .io (.send sock.fd s.client.toBuf.pending (.took n)) :: acts }
        path := path }

variable {sock} {s : State}

theorem brings_recv {l : List UInt8} {atEnd : Prop} {o : RecvOutcome} (len : Nat)
    (h : Brings l atEnd o) (hlen : 0 < len) :
    ∃ bs, recv len o = .got bs ∧ bs <+: l ∧ bs.length ≤ len ∧ (bs = [] → atEnd) := by
  cases o with
  | fail e => exact h.elim
  | data bs =>
    refine ⟨bs.take len, rfl, (List.take_prefix _ _).trans h.1, List.length_take_le _ _, ?_⟩
    intro hnil
    refine h.2 ?_
    cases bs with
    | nil => rfl
    | cons b bs =>
      obtain ⟨k, rfl⟩ := Nat.exists_eq_succ_of_ne_zero (Nat.ne_of_gt hlen)
      cases hnil

/-- The state after a step of the client, from its new state and its calls. -/
theorem step_client {e : StrCli.Event} {c : StrCli.State} (acts : List Act)
    (hc : StrCli.step sock s.client e = c) (hlog : c.log = s.client.log ++ acts) :
    step sock s (.client e) = acts.foldl (effect sock) { s with client := c } := by
  simp only [step, newActs, hc, hlog, List.drop_left]

theorem readStdin_did (hi : StrCli.Inv sock s.client) (hpc : s.client.pc = .readStdin)
    {o : RecvOutcome} {shut : Bool} (ha : Answers sock s (.readStdin o shut)) :
    Did sock s (step sock s (.client (.readStdin o shut))) := by
  obtain ⟨rfl, hbrings⟩ := ha
  by_cases hset : STDIN_FILENO ∈ s.client.rset
  · obtain ⟨heof, hroom⟩ := hi.masks.stdin hpc hset
    obtain ⟨bs, hr, hpre, hlen, hend⟩ :=
      brings_recv (MAXLINE - s.client.toBuf.iptr) (hbrings hset) (by omega)
    cases bs with
    | nil =>
      have hc : StrCli.step sock s.client (.readStdin o true) =
          { s.client with
            pc := .readSocket
            stdineof := true
            log := s.client.log ++ .io (.recv STDIN_FILENO (MAXLINE - s.client.toBuf.iptr)
              (.got [])) :: if s.client.toBuf.optr = s.client.toBuf.iptr then
                [.shutdown sock.fd] else [] } := by
        by_cases hmeet : s.client.toBuf.optr = s.client.toBuf.iptr <;>
          simp [StrCli.step, readStdin, hset, hr, hmeet, record, shutdown]
      rw [step_client _ hc rfl]
      by_cases hmeet : s.client.toBuf.optr = s.client.toBuf.iptr
      · have := @Did.eof sock s (MAXLINE - s.client.toBuf.iptr) hpc (hend rfl) heof _ rfl _ rfl
        simpa [hmeet, effect] using this
      · have := @Did.eof sock s (MAXLINE - s.client.toBuf.iptr) hpc (hend rfl) heof _ rfl _ rfl
        simpa [hmeet, effect] using this
    | cons b bs =>
      have hc : StrCli.step sock s.client (.readStdin o true) =
          { s.client with
            pc := .readSocket
            toBuf := s.client.toBuf.fill (b :: bs)
            wset := insert sock.fd s.client.wset
            log := s.client.log ++ [.io (.recv STDIN_FILENO (MAXLINE - s.client.toBuf.iptr)
              (.got (b :: bs)))] } := by
        simp [StrCli.step, readStdin, hset, hr, record]
      rw [step_client _ hc rfl]
      have := @Did.fill sock s (MAXLINE - s.client.toBuf.iptr) (b :: bs) hpc (by simp) hpre
        (by omega) heof
      simpa [effect] using this
  · have hc : StrCli.step sock s.client (.readStdin o true) =
        { s.client with pc := .readSocket } := by
      simp [StrCli.step, readStdin, hset]
    rw [step_client [] hc (by simp)]
    exact .passStdin hpc hset

theorem readSocket_did (hi : StrCli.Inv sock s.client) (hpc : s.client.pc = .readSocket)
    {o : RecvOutcome} (ha : Answers sock s (.readSocket o)) :
    Did sock s (step sock s (.client (.readSocket o))) := by
  have hin : ¬sock.fd = STDIN_FILENO := sock.not_stdin
  by_cases hset : sock.fd ∈ s.client.rset
  · have hroom := hi.masks.socket (.inr hpc) hset
    obtain ⟨bs, hr, hpre, hlen, hend⟩ :=
      brings_recv (MAXLINE - s.client.frBuf.iptr) (ha hset) (by omega)
    cases bs with
    | nil =>
      have hc : StrCli.step sock s.client (.readSocket o) =
          { s.client with
            pc := if s.client.stdineof then .returned else .exited
            log := s.client.log ++
              [.io (.recv sock.fd (MAXLINE - s.client.frBuf.iptr) (.got []))] } := by
        simp [StrCli.step, readSocket, hset, hr, record]
      rw [step_client _ hc rfl]
      have := @Did.ended sock s (MAXLINE - s.client.frBuf.iptr) hpc (hend rfl)
      simpa [effect, hin] using this
    | cons b bs =>
      have hc : StrCli.step sock s.client (.readSocket o) =
          { s.client with
            pc := .writeStdout
            frBuf := s.client.frBuf.fill (b :: bs)
            wset := insert STDOUT_FILENO s.client.wset
            log := s.client.log ++
              [.io (.recv sock.fd (MAXLINE - s.client.frBuf.iptr) (.got (b :: bs)))] } := by
        simp [StrCli.step, readSocket, hset, hr, record]
      rw [step_client _ hc rfl]
      have := @Did.fetch sock s (MAXLINE - s.client.frBuf.iptr) (b :: bs) hpc (by simp) hpre
        (by omega)
      simpa [effect, hin] using this
  · have hc : StrCli.step sock s.client (.readSocket o) =
        { s.client with pc := .writeStdout } := by
      simp [StrCli.step, readSocket, hset]
    rw [step_client [] hc (by simp)]
    exact .passSocket hpc hset

theorem writeStdout_did (hpc : s.client.pc = .writeStdout) {o : SendOutcome}
    (ha : Answers sock s (.writeStdout o)) :
    Did sock s (step sock s (.client (.writeStdout o))) := by
  have hout : ¬STDOUT_FILENO = sock.fd := fun h => sock.not_stdout h.symm
  by_cases hset : STDOUT_FILENO ∈ s.client.wset ∧ 0 < s.client.frBuf.iptr - s.client.frBuf.optr
  · cases o with
    | fail e =>
      obtain ⟨rfl, hsock⟩ := ha hset.1
      have hc : StrCli.step sock s.client (.writeStdout (.fail .again)) =
          { s.client with
            pc := .writeSocket
            log := s.client.log ++
              [.io (.send STDOUT_FILENO s.client.frBuf.pending (.err .again))] } := by
        simp only [StrCli.step, writeStdout, if_pos hset]
        simp [send, record]
      rw [step_client _ hc rfl]
      exact .passStdout _ hpc (.inr rfl) fun _ _ => hsock
    | take n =>
      have hc : StrCli.step sock s.client (.writeStdout (.take n)) =
          { s.client with
            pc := .writeSocket
            frBuf := s.client.frBuf.drain (min n (s.client.frBuf.iptr - s.client.frBuf.optr))
            log := s.client.log ++ [.io (.send STDOUT_FILENO s.client.frBuf.pending
              (.took (min n (s.client.frBuf.iptr - s.client.frBuf.optr))))] } := by
        simp only [StrCli.step, writeStdout, if_pos hset]
        simp [send, record]
      rw [step_client _ hc rfl]
      have := @Did.print sock s _ hpc (Nat.lt_min.mpr ⟨ha, hset.2⟩) (Nat.min_le_right _ _)
      simpa [effect, hout] using this
  · have hc : StrCli.step sock s.client (.writeStdout o) =
        { s.client with pc := .writeSocket } := by
      simp only [StrCli.step, writeStdout, hset, if_false]
    rw [step_client [] hc (by simp)]
    have := @Did.passStdout sock s [] hpc (.inl rfl) fun h h' => absurd ⟨h, h'⟩ hset
    simpa using this

theorem writeSocket_did (hpc : s.client.pc = .writeSocket) {o : SendOutcome} {shut : Bool}
    (ha : Answers sock s (.writeSocket o shut)) :
    Did sock s (step sock s (.client (.writeSocket o shut))) := by
  by_cases hset : sock.fd ∈ s.client.wset ∧ 0 < s.client.toBuf.iptr - s.client.toBuf.optr
  · cases o with
    | fail e =>
      obtain ⟨rfl, hfail⟩ := ha
      obtain ⟨rfl, hroom⟩ := hfail hset.1
      have hc : StrCli.step sock s.client (.writeSocket (.fail .again) true) =
          { s.client with
            pc := .select
            log := s.client.log ++
              [.io (.send sock.fd s.client.toBuf.pending (.err .again))] } := by
        simp only [StrCli.step, writeSocket, if_pos hset]
        simp [send, record]
      rw [step_client _ hc rfl]
      exact .passWrite _ hpc (.inr rfl) fun _ _ => hroom
    | take n =>
      obtain ⟨rfl, hpos, hroom⟩ := ha
      have hk : min n (s.client.toBuf.iptr - s.client.toBuf.optr) ≤ held s.client.toBuf :=
        Nat.min_le_right _ _
      have hk0 : 0 < min n (s.client.toBuf.iptr - s.client.toBuf.optr) :=
        Nat.lt_min.mpr ⟨hpos, hset.2⟩
      have hkr : min n (s.client.toBuf.iptr - s.client.toBuf.optr) ≤ s.path.up.room :=
        Nat.le_trans (Nat.min_le_left _ _) hroom
      have hsend : send (s.client.toBuf.iptr - s.client.toBuf.optr) (.take n) =
          .took (min n (s.client.toBuf.iptr - s.client.toBuf.optr)) := rfl
      generalize min n (s.client.toBuf.iptr - s.client.toBuf.optr) = k at *
      have hc : StrCli.step sock s.client (.writeSocket (.take n) true) =
          { s.client with
            pc := .select
            toBuf := s.client.toBuf.drain k
            log := s.client.log ++ .io (.send sock.fd s.client.toBuf.pending (.took k)) ::
              if s.client.toBuf.optr + k = s.client.toBuf.iptr ∧ s.client.stdineof = true then
                [.shutdown sock.fd] else [] } := by
        simp only [StrCli.step, writeSocket, if_pos hset]
        by_cases hmeet : s.client.toBuf.optr + k = s.client.toBuf.iptr ∧
            s.client.stdineof = true <;>
          simp [hsend, record, hmeet, shutdown]
      rw [step_client _ hc rfl]
      have := @Did.push sock s k hpc hk0 hk hkr _ rfl _ rfl
      by_cases hmeet : s.client.toBuf.optr + k = s.client.toBuf.iptr ∧ s.client.stdineof = true <;>
        simpa [hmeet, effect] using this
  · have hc : StrCli.step sock s.client (.writeSocket o shut) =
        { s.client with pc := .select } := by
      simp only [StrCli.step, writeSocket, hset, if_false]
    rw [step_client [] hc (by simp)]
    have := @Did.passWrite sock s [] hpc (.inl rfl) fun h h' => absurd ⟨h, h'⟩ hset
    simpa using this

theorem step_did (hi : StrCli.Inv sock s.client) {e : Event} (hok : (machine sock).ok s e) :
    Did sock s ((machine sock).step s e) := by
  cases e with
  | server e => exact .server e hok
  | client e =>
    obtain ⟨hpc, ha⟩ := hok
    cases e with
    | select ready =>
      cases ready with
      | none => exact ha.elim
      | some ready =>
        obtain ⟨hpc, hr, hw⟩ := hpc
        obtain ⟨hne, hread, hwrite⟩ := ha
        show Did sock s (step sock s (.client (.select (some ready))))
        rw [step_client [] rfl (by simp [StrCli.step, select])]
        exact .select _ _ hpc hne hr hw (fun h => (hread.mp h).2) fun h => (hwrite.mp h).2
    | readStdin o shut => exact readStdin_did hi hpc ha
    | readSocket o => exact readSocket_did hi hpc ha
    | writeStdout o => exact writeStdout_did hpc ha
    | writeSocket o shut => exact writeSocket_did hpc ha

/-! ## The bytes -/

/-- What was read from standard input and what is still to come is the input; what was written to
the socket has come back from it or is under way. -/
structure Bytes (sock : Sockfd) (input : List UInt8) (s : State) : Prop where
  stdin : received STDIN_FILENO (calls s.client.log) ++ s.stdin = input
  socket : received sock.fd (calls s.client.log) ++ s.path.content =
    accepted sock.fd (calls s.client.log)

section
variable {input : List UInt8} {s' : State}

/-- A call that moves nothing. -/
theorem Bytes.quiet (h : Bytes sock input s) {acts : List Act} {path : EchoPath.State}
    (hpath : path.content = s.path.content) (c : StrCli.State) (hlog : c.log = s.client.log ++ acts)
    (hin : received STDIN_FILENO (calls acts) = []) (hgot : received sock.fd (calls acts) = [])
    (hput : accepted sock.fd (calls acts) = []) :
    Bytes sock input { client := c, stdin := s.stdin, path := path } where
  stdin := by simpa [hlog, hin] using h.stdin
  socket := by simpa [hlog, hgot, hput, hpath] using h.socket

theorem calls_shut (p : Prop) [Decidable p] (fd : Int) :
    calls (if p then [Act.shutdown fd] else []) = [] := by
  split <;> rfl

theorem Bytes.did (h : Bytes sock input s) (hd : Did sock s s') : Bytes sock input s' := by
  have hin : ¬sock.fd = STDIN_FILENO := sock.not_stdin
  have hin' : ¬STDIN_FILENO = sock.fd := fun he => hin he.symm
  have hout : ¬STDOUT_FILENO = sock.fd := fun he => sock.not_stdout he.symm
  cases hd with
  | server e hok => exact ⟨h.stdin, by rw [EchoPath.step_content hok]; exact h.socket⟩
  | select rset wset => exact ⟨h.stdin, h.socket⟩
  | passStdin => exact ⟨h.stdin, h.socket⟩
  | eof len hpc hend heof path hpath acts hacts =>
    have hcalls : calls acts = [] := by rw [hacts, calls_shut]
    refine h.quiet ?_ _ rfl ?_ ?_ ?_
    · rw [hpath]
      split <;> rfl
    all_goals simp [hcalls, Call.bytesIn, Call.bytesOut]
  | fill len bs hpc hbs hpre =>
    obtain ⟨rest, hrest⟩ := hpre
    refine ⟨?_, ?_⟩
    · simpa [Call.bytesIn, ← hrest] using h.stdin
    · simpa [Call.bytesIn, Call.bytesOut, hin'] using h.socket
  | passSocket => exact ⟨h.stdin, h.socket⟩
  | ended len hpc hend =>
    refine h.quiet ?_ _ rfl ?_ ?_ ?_
    · simp [EchoPath.State.content, EchoPath.State.recv]
    all_goals simp [Call.bytesIn, Call.bytesOut]
  | fetch len bs hpc hbs hpre =>
    have htake : s.path.down.data.take bs.length = bs := List.prefix_iff_eq_take.mp hpre |>.symm
    have hcontent := EchoPath.recv_content (s := s.path) bs.length
    rw [htake] at hcontent
    refine ⟨?_, ?_⟩
    · simpa [Call.bytesIn, hin] using h.stdin
    · simpa [Call.bytesIn, Call.bytesOut, hcontent] using h.socket
  | passStdout acts hpc hacts =>
    refine h.quiet rfl _ rfl ?_ ?_ ?_
    all_goals rcases hacts with rfl | rfl <;> simp [Call.bytesIn, Call.bytesOut]
  | print n => exact h.quiet rfl _ rfl rfl rfl (by simp [Call.bytesOut, hout])
  | passWrite acts hpc hacts =>
    refine h.quiet rfl _ rfl ?_ ?_ ?_
    all_goals rcases hacts with rfl | rfl <;> simp [Call.bytesIn, Call.bytesOut]
  | push n hpc hpos hn hroom path hpath acts hacts =>
    have hcalls : calls acts = [] := by rw [hacts, calls_shut]
    have hlen : (s.client.toBuf.pending.take n).length ≤ s.path.up.room :=
      Nat.le_trans (List.length_take_le _ _) hroom
    have hcontent : path.content = s.path.content ++ s.client.toBuf.pending.take n := by
      rw [hpath]
      split
      · exact EchoPath.send_content hlen
      · exact EchoPath.send_content hlen
    refine ⟨?_, ?_⟩
    · simpa [hcalls, Call.bytesIn] using h.stdin
    · have := congrArg (· ++ s.client.toBuf.pending.take n) h.socket
      simpa [hcalls, Call.bytesIn, Call.bytesOut, hcontent] using this

end

/-! ## The loop and the connection -/

/-- A buffer that is empty is empty at its beginning. -/
def Rewound (b : Buffer) : Prop := b.optr = b.iptr → b.iptr = 0

/-- What the loop knows of the connection. -/
structure Along (sock : Sockfd) (s : State) : Prop where
  path : EchoPath.Sound s.path
  eof : s.client.stdineof = true → s.stdin = []
  fin : s.path.up.fin = true ↔
    s.client.stdineof = true ∧ s.client.toBuf.optr = s.client.toBuf.iptr
  place : s.client.pc ≠ .exited
  back : s.client.pc = .returned → s.path.content = [] ∧ s.path.up.fin = true
  rewound : Rewound s.client.toBuf ∧ Rewound s.client.frBuf
  ready : s.client.pc = .readStdin ∨ s.client.pc = .readSocket → sock.fd ∈ s.client.rset →
    s.path.down.Readable

theorem rewound_fill {b : Buffer} {bs : List UInt8} (hle : b.optr ≤ b.iptr) (hbs : bs ≠ []) :
    Rewound (b.fill bs) := by
  have hpos := List.length_pos_iff.mpr hbs
  intro h
  simp only [Buffer.fill] at h
  omega

theorem rewound_drain (b : Buffer) (n : Nat) : Rewound (b.drain n) := by
  unfold Rewound Buffer.drain
  split
  · exact fun _ => rfl
  · rename_i hne
    exact fun h => absurd h hne

section
variable {s' : State}

theorem Along.unsent (h : Along sock s)
    (hno : s.client.stdineof = false ∨ s.client.toBuf.optr ≠ s.client.toBuf.iptr) :
    s.path.up.fin = false := by
  refine Bool.eq_false_iff.mpr fun hfin => ?_
  obtain ⟨heof, hmeet⟩ := h.fin.mp hfin
  cases hno with
  | inl hf => rw [heof] at hf; cases hf
  | inr hne => exact hne hmeet

theorem Along.did (hi : StrCli.Inv sock s.client) (h : Along sock s) (hd : Did sock s s') :
    Along sock s' := by
  have hto : s.client.toBuf.optr ≤ s.client.toBuf.iptr := hi.relayed.up.direction.le
  have hfr : s.client.frBuf.optr ≤ s.client.frBuf.iptr := hi.relayed.down.direction.le
  cases hd with
  | server e hok =>
    refine ⟨EchoPath.step_sound h.path hok, h.eof, ?_, h.place, ?_, h.rewound, ?_⟩
    · rw [EchoPath.step_fin]
      exact h.fin
    · rw [EchoPath.step_content hok, EchoPath.step_fin]
      exact h.back
    · exact fun hpc hset => EchoPath.step_readable hok (h.ready hpc hset)
  | select rset wset hpc hne hr hw hread hwrite =>
    exact ⟨h.path, h.eof, h.fin, by simp, by simp, h.rewound, fun _ => hread⟩
  | passStdin hpc hno =>
    exact ⟨h.path, h.eof, h.fin, by simp, by simp, h.rewound, fun _ => h.ready (.inl hpc)⟩
  | eof len hpc hend heof path hpath acts hacts =>
    by_cases hmeet : s.client.toBuf.optr = s.client.toBuf.iptr
    · rw [if_pos hmeet] at hpath
      subst hpath
      exact ⟨h.path.shutdown, fun _ => hend, by simp [EchoPath.State.shutdown, hmeet], by simp,
        by simp, h.rewound, fun _ => h.ready (.inl hpc)⟩
    · rw [if_neg hmeet] at hpath
      subst hpath
      exact ⟨h.path, fun _ => hend, by simp [hmeet, h.unsent (.inl heof)], by simp, by simp,
        h.rewound, fun _ => h.ready (.inl hpc)⟩
  | fill len bs hpc hbs hpre hlen heof =>
    exact ⟨h.path, by simp [heof], by simp [heof, h.unsent (.inl heof)], by simp, by simp,
      ⟨rewound_fill hto hbs, h.rewound.2⟩, fun _ => h.ready (.inl hpc)⟩
  | passSocket hpc hno =>
    exact ⟨h.path, h.eof, h.fin, by simp, by simp, h.rewound, by simp⟩
  | ended len hpc hend =>
    -- the way back only ends when the server has seen the FIN, so `stdineof` is set
    obtain ⟨hcontent, hfin⟩ := h.path.ended hend
    have heof := (h.fin.mp hfin).1
    refine ⟨h.path.recv, h.eof, h.fin, by simp [heof], fun _ => ⟨?_, hfin⟩, h.rewound,
      by simp [heof]⟩
    simpa [EchoPath.State.content, EchoPath.State.recv] using hcontent
  | fetch len bs hpc hbs hpre hlen =>
    exact ⟨h.path.recv, h.eof, h.fin, by simp, by simp, ⟨h.rewound.1, rewound_fill hfr hbs⟩,
      by simp⟩
  | passStdout acts hpc hacts hno =>
    exact ⟨h.path, h.eof, h.fin, by simp, by simp, h.rewound, by simp⟩
  | print n hpc hpos hn =>
    exact ⟨h.path, h.eof, h.fin, by simp, by simp, ⟨h.rewound.1, rewound_drain _ _⟩, by simp⟩
  | passWrite acts hpc hacts hno =>
    exact ⟨h.path, h.eof, h.fin, by simp, by simp, h.rewound, by simp⟩
  | push n hpc hpos hn hroom path hpath acts hacts =>
    have hfin : s.path.up.fin = false := by
      refine h.unsent (.inr ?_)
      unfold held at hn
      omega
    have hrew := And.intro (rewound_drain s.client.toBuf n) h.rewound.2
    by_cases hmeet : s.client.toBuf.optr + n = s.client.toBuf.iptr ∧ s.client.stdineof = true
    · rw [if_pos hmeet] at hpath
      subst hpath
      refine ⟨(h.path.send hfin).shutdown, h.eof, ?_, by simp, by simp, hrew, by simp⟩
      simp [EchoPath.State.shutdown, Buffer.drain_meets, hmeet]
    · rw [if_neg hmeet] at hpath
      subst hpath
      refine ⟨h.path.send hfin, h.eof, ?_, by simp, by simp, hrew, by simp⟩
      simp only [EchoPath.State.send, Channel.push_fin, hfin, Buffer.drain_meets,
        Bool.false_eq_true, false_iff]
      exact fun hc => hmeet ⟨hc.2, hc.1⟩

end

/-! ## Every step moves on -/

/-- How far the bytes have to go, counted in hops, and the two ends of file. -/
def toGo (s : State) : Nat :=
  6 * s.stdin.length + 5 * held s.client.toBuf + s.path.work + held s.client.frBuf +
    (if s.client.stdineof then 0 else 1) + if s.client.pc = .returned then 0 else 1

/-- Something that `select` reported is still going to move in this turn of the loop. -/
def Due (sock : Sockfd) (s : State) : Prop :=
  let writes := sock.fd ∈ s.client.wset ∧ 0 < held s.client.toBuf ∧ 0 < s.path.up.room
  let prints := STDOUT_FILENO ∈ s.client.wset ∧ 0 < held s.client.frBuf ∧
    sock.fd ∉ s.client.rset
  match s.client.pc with
  | .readStdin => STDIN_FILENO ∈ s.client.rset ∨ sock.fd ∈ s.client.rset ∨ prints ∨ writes
  | .readSocket => sock.fd ∈ s.client.rset ∨ prints ∨ writes
  | .writeStdout => prints ∨ writes
  | .writeSocket => writes
  | _ => True

/-- The steps of the loop that are left in this turn. -/
def place : Pc → Nat
  | .select => 5
  | .readStdin => 4
  | .readSocket => 3
  | .writeStdout => 2
  | .writeSocket => 1
  | _ => 0

instance (sock : Sockfd) (s : State) : Decidable (Due sock s) := by
  unfold Due
  dsimp only
  split <;> infer_instance

/-- A turn in which nothing is going to move any more must have moved something. -/
def phase (sock : Sockfd) (s : State) : Nat :=
  place s.client.pc + if Due sock s then 0 else 5

def measure (sock : Sockfd) (s : State) : Nat := 6 * toGo s + phase sock s

theorem phase_of_due (h : Due sock s) : phase sock s = place s.client.pc := by
  rw [phase, if_pos h, Nat.add_zero]

theorem phase_select (h : s.client.pc = .select) : phase sock s = 5 := by
  have hdue : Due sock s := by simp only [Due, h]
  rw [phase_of_due hdue, h, place]

theorem phase_le (s : State) : phase sock s ≤ place s.client.pc + 5 := by
  unfold phase
  split <;> omega

theorem le_phase (s : State) : place s.client.pc ≤ phase sock s := Nat.le_add_right _ _

section
variable {s' : State}

/-- A step that moves something, within a turn of the loop. -/
theorem lower_of_move (hgo : toGo s' < toGo s)
    (hplace : place s'.client.pc ≤ place s.client.pc) : measure sock s' < measure sock s := by
  have h : phase sock s' ≤ _ := phase_le s'
  have h' : _ ≤ phase sock s := le_phase s
  unfold measure
  omega

/-- A step that moves nothing, within a turn of the loop. -/
theorem lower_of_pass (hgo : toGo s' = toGo s) (hplace : place s'.client.pc < place s.client.pc)
    (hdue : Due sock s → Due sock s') : measure sock s' < measure sock s := by
  unfold measure phase
  by_cases h : Due sock s
  · rw [hgo, if_pos h, if_pos (hdue h)]
    omega
  · rw [hgo, if_neg h]
    split <;> omega

theorem held_fill {b : Buffer} (hle : b.optr ≤ b.iptr) (bs : List UInt8) :
    held (b.fill bs) = held b + bs.length := by
  simp only [held, Buffer.fill]
  omega

theorem held_drain {b : Buffer} {n : Nat} (hn : n ≤ held b) (hle : b.optr ≤ b.iptr) :
    held (b.drain n) + n = held b := by
  unfold Buffer.drain
  unfold held at *
  split
  · simp only
    omega
  · simp only
    omega

theorem mem_readSet {c : StrCli.State} {fd : Int} (h : fd ∈ readSet sock c) :
    fd = STDIN_FILENO ∨ fd = sock.fd := by
  unfold readSet at h
  split at h <;> split at h <;> simp at h
  · exact h.symm
  · exact .inl h
  · exact .inr h

theorem mem_writeSet {c : StrCli.State} {fd : Int} (h : fd ∈ writeSet sock c) :
    (fd = sock.fd ∧ c.toBuf.optr ≠ c.toBuf.iptr) ∨
      (fd = STDOUT_FILENO ∧ c.frBuf.optr ≠ c.frBuf.iptr) := by
  unfold writeSet at h
  split at h <;> split at h <;> simp at h
  · rename_i hto hfr
    exact h.symm.imp (⟨·, hto⟩) (⟨·, hfr⟩)
  · rename_i hto _
    exact .inl ⟨h, hto⟩
  · rename_i _ hfr
    exact .inr ⟨h, hfr⟩

/-- Something that `select` reports is going to move. -/
theorem measure_select {rset wset : Finset Int} (hpc : s.client.pc = .select)
    (hne : rset ≠ ∅ ∨ wset ≠ ∅) (hr : rset ⊆ readSet sock s.client)
    (hw : wset ⊆ writeSet sock s.client) (hwrite : sock.fd ∈ wset → 0 < s.path.up.room)
    (hto : s.client.toBuf.optr ≤ s.client.toBuf.iptr)
    (hfr : s.client.frBuf.optr ≤ s.client.frBuf.iptr) :
    measure sock { s with
      client := { s.client with rset := rset, wset := wset, pc := .readStdin } } <
      measure sock s := by
  refine lower_of_pass ?_ (by simp [hpc, place]) fun _ => ?_
  · simp [toGo, hpc]
  · show STDIN_FILENO ∈ rset ∨ sock.fd ∈ rset ∨
      (STDOUT_FILENO ∈ wset ∧ 0 < held s.client.frBuf ∧ sock.fd ∉ rset) ∨
      (sock.fd ∈ wset ∧ 0 < held s.client.toBuf ∧ 0 < s.path.up.room)
    by_cases hs : sock.fd ∈ rset
    · exact .inr (.inl hs)
    by_cases hr0 : rset = ∅
    · obtain ⟨fd, hfd⟩ := Finset.nonempty_iff_ne_empty.mpr (hne.resolve_left (· hr0))
      rcases mem_writeSet (hw hfd) with ⟨rfl, hmeet⟩ | ⟨rfl, hmeet⟩
      · refine .inr (.inr (.inr ⟨hfd, ?_, hwrite hfd⟩))
        unfold held
        omega
      · refine .inr (.inr (.inl ⟨hfd, ?_, hs⟩))
        unfold held
        omega
    · obtain ⟨fd, hfd⟩ := Finset.nonempty_iff_ne_empty.mpr hr0
      rcases mem_readSet (hr hfd) with rfl | rfl
      · exact .inl hfd
      · exact absurd hfd hs

theorem measure_eof {path : EchoPath.State} {log : List Act} (hpc : s.client.pc = .readStdin)
    (heof : s.client.stdineof = false) (hwork : path.work = s.path.work) :
    measure sock { s with
      client := { s.client with pc := .readSocket, stdineof := true, log := log }
      path := path } < measure sock s := by
  refine lower_of_move ?_ (by simp [hpc, place])
  simp only [toGo, hpc, heof, hwork, reduceCtorEq, Bool.false_eq_true, if_true, if_false]
  omega

theorem measure_fill {bs : List UInt8} {log : List Act} (hpc : s.client.pc = .readStdin)
    (hbs : bs ≠ []) (hpre : bs <+: s.stdin) (heof : s.client.stdineof = false)
    (hto : s.client.toBuf.optr ≤ s.client.toBuf.iptr) :
    measure sock { s with
      client := { s.client with
        pc := .readSocket
        toBuf := s.client.toBuf.fill bs
        wset := insert sock.fd s.client.wset
        log := log }
      stdin := s.stdin.drop bs.length } < measure sock s := by
  have hpos := List.length_pos_iff.mpr hbs
  have hle := hpre.length_le
  refine lower_of_move ?_ (by simp [hpc, place])
  simp only [toGo, hpc, heof, held_fill hto, List.length_drop, reduceCtorEq,
    Bool.false_eq_true, if_false]
  omega

theorem measure_ended {log : List Act} (hpc : s.client.pc = .readSocket)
    (heof : s.client.stdineof = true) :
    measure sock { s with
      client := { s.client with
        pc := if s.client.stdineof then .returned else .exited
        log := log }
      path := s.path.recv 0 } < measure sock s := by
  have hwork : (s.path.recv 0).work = s.path.work := EchoPath.recv_work (Nat.zero_le _)
  refine lower_of_move ?_ (by simp [hpc, heof, place])
  simp only [toGo, hpc, heof, hwork, reduceCtorEq, if_true, if_false]
  omega

theorem measure_fetch {bs : List UInt8} {log : List Act} (hpc : s.client.pc = .readSocket)
    (hbs : bs ≠ []) (hpre : bs <+: s.path.down.data)
    (hfr : s.client.frBuf.optr ≤ s.client.frBuf.iptr) :
    measure sock { s with
      client := { s.client with
        pc := .writeStdout
        frBuf := s.client.frBuf.fill bs
        wset := insert STDOUT_FILENO s.client.wset
        log := log }
      path := s.path.recv bs.length } < measure sock s := by
  have hpos := List.length_pos_iff.mpr hbs
  have hwork := EchoPath.recv_work (s := s.path) hpre.length_le
  refine lower_of_move ?_ (by simp [hpc, place])
  simp only [toGo, hpc, held_fill hfr, reduceCtorEq, if_false]
  omega

theorem measure_print {n : Nat} {log : List Act} (hpc : s.client.pc = .writeStdout) (hpos : 0 < n)
    (hn : n ≤ held s.client.frBuf) (hfr : s.client.frBuf.optr ≤ s.client.frBuf.iptr) :
    measure sock { s with
      client := { s.client with
        pc := .writeSocket
        frBuf := s.client.frBuf.drain n
        log := log } } < measure sock s := by
  have hdrain := held_drain hn hfr
  refine lower_of_move ?_ (by simp [hpc, place])
  simp only [toGo, hpc, reduceCtorEq, if_false]
  omega

/-- Nothing was due any more, so the turn has moved something. -/
theorem measure_passWrite {log : List Act} (hpc : s.client.pc = .writeSocket)
    (hno : sock.fd ∈ s.client.wset → 0 < held s.client.toBuf → s.path.up.room = 0) :
    measure sock { s with client := { s.client with pc := .select, log := log } } <
      measure sock s := by
  have hdue : ¬Due sock s := by
    simp only [Due, hpc]
    rintro ⟨hset, hheld, hroom⟩
    have := hno hset hheld
    omega
  have hphase : phase sock s = 6 := by
    rw [phase, hpc, place, if_neg hdue]
  unfold measure
  rw [hphase, phase_select rfl]
  simp [toGo, hpc]

/-- The turn begins again, and bytes have moved. -/
theorem measure_push {n : Nat} {path : EchoPath.State} {log : List Act}
    (hpc : s.client.pc = .writeSocket) (hpos : 0 < n) (hn : n ≤ held s.client.toBuf)
    (hto : s.client.toBuf.optr ≤ s.client.toBuf.iptr)
    (hwork : path.work ≤ s.path.work + 4 * n) :
    measure sock { s with
      client := { s.client with
        pc := .select
        toBuf := s.client.toBuf.drain n
        log := log }
      path := path } < measure sock s := by
  have hdrain := held_drain hn hto
  have hphase : _ ≤ phase sock s := le_phase s
  simp only [hpc, place] at hphase
  unfold measure
  rw [phase_select rfl]
  simp only [toGo, hpc, reduceCtorEq, if_false]
  omega

theorem measure_did (hi : StrCli.Inv sock s.client) (ha : Along sock s) (hd : Did sock s s') :
    measure sock s' < measure sock s := by
  have hto : s.client.toBuf.optr ≤ s.client.toBuf.iptr := hi.relayed.up.direction.le
  have hfr : s.client.frBuf.optr ≤ s.client.frBuf.iptr := hi.relayed.down.direction.le
  cases hd with
  | server e hok =>
    have hwork := EchoPath.step_work hok
    refine lower_of_move ?_ (Nat.le_refl _)
    simp only [toGo]
    omega
  | select rset wset hpc hne hr hw hread hwrite =>
    exact measure_select hpc hne hr hw hwrite hto hfr
  | passStdin hpc hno =>
    refine lower_of_pass ?_ (by simp [hpc, place]) fun h => ?_
    · simp [toGo, hpc]
    · simp only [Due, hpc] at h ⊢
      exact h.resolve_left hno
  | eof len hpc hend heof path hpath acts hacts =>
    refine measure_eof hpc heof ?_
    rw [hpath]
    split <;> rfl
  | fill len bs hpc hbs hpre hlen heof => exact measure_fill hpc hbs hpre heof hto
  | passSocket hpc hno =>
    refine lower_of_pass ?_ (by simp [hpc, place]) fun h => ?_
    · simp [toGo, hpc]
    · simp only [Due, hpc] at h ⊢
      exact h.resolve_left hno
  | ended len hpc hend => exact measure_ended hpc (ha.fin.mp (ha.path.ended hend).2).1
  | fetch len bs hpc hbs hpre hlen => exact measure_fetch hpc hbs hpre hfr
  | passStdout acts hpc hacts hno =>
    refine lower_of_pass ?_ (by simp [hpc, place]) fun h => ?_
    · simp [toGo, hpc]
    · simp only [Due, hpc] at h ⊢
      exact h.resolve_left fun hp => hp.2.2 (hno hp.1 hp.2.1)
  | print n hpc hpos hn => exact measure_print hpc hpos hn hfr
  | passWrite acts hpc hacts hno => exact measure_passWrite hpc hno
  | push n hpc hpos hn hroom path hpath acts hacts =>
    refine measure_push hpc hpos hn hto ?_
    have hlen : (s.client.toBuf.pending.take n).length ≤ n := List.length_take_le _ _
    have hwork := EchoPath.send_work (Nat.le_trans hlen hroom)
    rw [hpath]
    split
    · rw [EchoPath.shutdown_work]
      omega
    · omega

/-! ## The session -/

/-- Both connections can hold something. -/
def Roomy (path : EchoPath.State) : Prop := 0 < path.up.cap ∧ 0 < path.down.cap

structure Inv (sock : Sockfd) (input : List UInt8) (s : State) : Prop where
  client : StrCli.Inv sock s.client
  bytes : Bytes sock input s
  along : Along sock s

theorem effect_client (s : State) (acts : List Act) :
    (acts.foldl (effect sock) s).client = s.client := by
  induction acts generalizing s with
  | nil => rfl
  | cons a acts ih =>
    rw [List.foldl_cons, ih]
    unfold effect
    split
    · split
      · rfl
      · split <;> rfl
    · split <;> rfl
    · rfl
    · rfl

theorem step_inv {input : List UInt8} (h : Inv sock input s) {e : Event}
    (hok : (machine sock).ok s e) : Inv sock input ((machine sock).step s e) := by
  have hd := step_did h.client hok
  refine ⟨?_, h.bytes.did hd, h.along.did h.client hd⟩
  cases e with
  | server e => exact h.client
  | client e =>
    show StrCli.Inv sock (step sock s (.client e)).client
    rw [step, effect_client]
    exact StrCli.step_inv h.client hok.1

theorem roomy_did (h : Roomy s.path) (hd : Did sock s s') : Roomy s'.path := by
  cases hd with
  | server e hok =>
    obtain ⟨hup, hdown⟩ := EchoPath.step_caps s.path e
    rwa [Roomy, hup, hdown]
  | eof len hpc hend heof path hpath =>
    subst hpath
    show Roomy (if s.client.toBuf.optr = s.client.toBuf.iptr then _ else _)
    split <;> exact h
  | push n hpc hpos hn hroom path hpath =>
    subst hpath
    show Roomy (if s.client.toBuf.optr + n = s.client.toBuf.iptr ∧ s.client.stdineof = true then _
      else _)
    split <;> exact h
  | _ => exact h

/-- While the server waits, `select` finds something: what the client has to print, what it has to
send and there is room for, the way back at its end, or standard input. -/
theorem select_finds (h : Along sock s) (hroomy : Roomy s.path) (hpc : s.client.pc = .select)
    (hserv : ∀ e, ¬EchoPath.ok s.path e) : ∃ e, (machine sock).ok s (.client e) := by
  have hin : STDIN_FILENO ≠ sock.fd := fun he => sock.not_stdin he.symm
  have hout : STDOUT_FILENO ≠ sock.fd := fun he => sock.not_stdout he.symm
  let r := (readSet sock s.client).filter fun fd => fd = STDIN_FILENO ∨ s.path.down.Readable
  let w := (writeSet sock s.client).filter fun fd => fd = STDOUT_FILENO ∨ 0 < s.path.up.room
  refine ⟨.select (some (r, w)), ⟨hpc, Finset.filter_subset _ _, Finset.filter_subset _ _⟩, ?_, ?_,
    ?_⟩
  · by_contra hno
    obtain ⟨hr, hw⟩ : r = ∅ ∧ w = ∅ := by simpa [not_or] using hno
    have hr' : ∀ fd ∈ readSet sock s.client, ¬(fd = STDIN_FILENO ∨ s.path.down.Readable) :=
      Finset.filter_eq_empty_iff.mp hr
    have hw' : ∀ fd ∈ writeSet sock s.client, ¬(fd = STDOUT_FILENO ∨ 0 < s.path.up.room) :=
      Finset.filter_eq_empty_iff.mp hw
    have hfr : s.client.frBuf.optr = s.client.frBuf.iptr := by
      by_contra hne
      exact hw' STDOUT_FILENO (by simp [writeSet, hne]) (.inl rfl)
    have hfr0 : s.client.frBuf.iptr < MAXLINE := by
      rw [h.rewound.2 hfr]
      decide
    have hback : ¬s.path.down.Readable := fun hread =>
      hr' sock.fd (by simp [readSet, hfr0]) (.inr hread)
    have hdown : 0 < s.path.down.room := by
      have hdata : s.path.down.data = [] := by
        by_contra hne
        exact hback (.inl hne)
      have := s.path.down.length_eq
      simp only [hdata, List.length_nil] at this
      have := hroomy.2
      omega
    obtain ⟨_, hup⟩ | ⟨_, hfull⟩ | hret := (EchoPath.waits_iff h.path).mp hserv
    · have hdata : s.path.up.data = [] := by
        by_contra hne
        exact hup (.inl hne)
      have hroom : 0 < s.path.up.room := by
        have := s.path.up.length_eq
        simp only [hdata, List.length_nil] at this
        have := hroomy.1
        omega
      have hto : s.client.toBuf.optr = s.client.toBuf.iptr := by
        by_contra hne
        exact hw' sock.fd (by simp [writeSet, hne, hfr]) (.inr hroom)
      have hto0 : s.client.toBuf.iptr < MAXLINE := by
        rw [h.rewound.1 hto]
        decide
      have heof : s.client.stdineof = true := by
        by_contra hne
        refine hr' STDIN_FILENO ?_ (.inl rfl)
        simp [readSet, Bool.eq_false_iff.mpr hne, hto0, hfr0]
      exact hup (.inr (h.fin.mpr ⟨heof, hto⟩))
    · omega
    · exact hback (.inr (h.path.returned_iff.mp hret))
  · simp [r, hin.symm]
  · simp [w, hout.symm]

theorem returned_of_stuck {input : List UInt8} (h : Inv sock input s) (hroomy : Roomy s.path)
    (hstuck : (machine sock).Stuck s) : s.client.pc = .returned := by
  have hserv : ∀ e, ¬EchoPath.ok s.path e := fun e => hstuck (.server e)
  cases hpc : s.client.pc with
  | select =>
    obtain ⟨e, he⟩ := select_finds h.along hroomy hpc hserv
    exact absurd he (hstuck _)
  | readStdin =>
    refine absurd ⟨hpc, rfl, fun _ => ⟨List.take_prefix 1 _, fun hnil => ?_⟩⟩
      (hstuck (.client (.readStdin (.data (s.stdin.take 1)) true)))
    exact (List.take_eq_nil_iff.mp hnil).resolve_left Nat.one_ne_zero
  | readSocket =>
    refine absurd ⟨hpc, fun hset => ⟨List.take_prefix 1 _, fun hnil => ?_⟩⟩
      (hstuck (.client (.readSocket (.data (s.path.down.data.take 1)))))
    have hdata := (List.take_eq_nil_iff.mp hnil).resolve_left Nat.one_ne_zero
    exact ⟨hdata, (h.along.ready (.inr hpc) hset).resolve_left (· hdata)⟩
  | writeStdout =>
    exact absurd ⟨hpc, Nat.one_pos⟩ (hstuck (.client (.writeStdout (.take 1))))
  | writeSocket =>
    by_cases hroom : 0 < s.path.up.room
    · exact absurd ⟨hpc, rfl, Nat.one_pos, hroom⟩ (hstuck (.client (.writeSocket (.take 1) true)))
    · refine absurd ⟨hpc, rfl, fun _ => ⟨rfl, ?_⟩⟩
        (hstuck (.client (.writeSocket (.fail .again) true)))
      omega
  | returned => rfl
  | exited => exact absurd hpc h.along.place

theorem start_session (toMem frMem : Memory) (capUp capDown : Nat) (input : List UInt8) :
    Inv sock input (start toMem frMem capUp capDown input) where
  client := start_inv toMem frMem
  bytes := ⟨rfl, rfl⟩
  along := ⟨EchoPath.start_sound capUp capDown, by simp [start, StrCli.start],
    by simp [start, StrCli.start, EchoPath.start], by simp [start, StrCli.start],
    by simp [start, StrCli.start], ⟨fun _ => rfl, fun _ => rfl⟩, by simp [start, StrCli.start]⟩

/-- Everything standard input has brought is, in this order, on standard output, in `fr`, on the
way, in `to`; and `str_cli` has not given up on the server. -/
structure Conserved (input : List UInt8) (s : State) : Prop where
  bytes : accepted STDOUT_FILENO (calls s.client.log) ++ s.client.frBuf.pending ++
    s.path.content ++ s.client.toBuf.pending ++ s.stdin = input
  alive : s.client.pc ≠ .exited

theorem Inv.conserved {input : List UInt8} (h : Inv sock input s) : Conserved input s where
  bytes := by
    have hup : accepted sock.fd (calls s.client.log) ++ s.client.toBuf.pending =
        received STDIN_FILENO (calls s.client.log) := h.client.relayed.up.direction.bytes
    have hdown : accepted STDOUT_FILENO (calls s.client.log) ++ s.client.frBuf.pending =
        received sock.fd (calls s.client.log) := h.client.relayed.down.direction.bytes
    rw [hdown, h.bytes.socket, hup, h.bytes.stdin]
  alive := h.along.place

/-- `str_cli` and `str_echo` have returned, all that standard input brought has come back, and what
is not on standard output is in `fr`. -/
def Echoed (input : List UInt8) (s : State) : Prop :=
  s.client.pc = .returned ∧ s.path.serv = .returned ∧
    accepted STDOUT_FILENO (calls s.client.log) ++ s.client.frBuf.pending = input

theorem Inv.echoed {input : List UInt8} (h : Inv sock input s) (hpc : s.client.pc = .returned)
    (hstuck : (machine sock).Stuck s) : Echoed input s := by
  have hall := h.conserved.bytes
  obtain ⟨hcontent, hfin⟩ := h.along.back hpc
  obtain ⟨heof, hmeet⟩ := h.along.fin.mp hfin
  have hpend : s.client.toBuf.pending = [] := slice_of_le (Nat.le_of_eq hmeet.symm)
  refine ⟨hpc, ?_, ?_⟩
  · exact h.along.path.returned_of_stuck hcontent hfin fun e => hstuck (.server e)
  · simpa [hcontent, hpend, h.along.eof heof] using hall

end

theorem session_inv (sock : Sockfd) (toMem frMem : Memory) (capUp capDown : Nat)
    (input : List UInt8) {es : List Event}
    (hv : (machine sock).Valid (start toMem frMem capUp capDown input) es) :
    (machine sock).Always (Inv sock input) (start toMem frMem capUp capDown input) es :=
  Machine.always_inv (fun _ _ h hok => step_inv h hok)
    (start_session toMem frMem capUp capDown input) hv

/-- In every state of every session no byte is lost, doubled or overtaken on its way to the server
and back, and the client never takes the server for dead. -/
theorem session_conserves (sock : Sockfd) (toMem frMem : Memory) (capUp capDown : Nat)
    (input : List UInt8) (es : List Event)
    (hv : (machine sock).Valid (start toMem frMem capUp capDown input) es) :
    (machine sock).Always (Conserved input) (start toMem frMem capUp capDown input) es :=
  (session_inv sock toMem frMem capUp capDown input hv).imp fun _ h => h.conserved

/-- A byte goes to the server, which reads it while the client waits for more. -/
def oneByte : List Event :=
  [.client (.select (some ({0}, ∅))), .client (.readStdin (.data [104]) true),
    .client (.readSocket (.fail .again)), .client (.writeStdout (.fail .again)),
    .client (.writeSocket (.take 1) true), .server (.read 1),
    .client (.select (some ({0}, ∅))), .server (.write 1)]

theorem session_conserves_oneByte :
    (machine sock3).Always (Conserved [104, 105]) (start blank blank 8 8 [104, 105]) oneByte :=
  session_conserves sock3 blank blank 8 8 [104, 105] oneByte (by decide +kernel)

/-- Every session ends, whatever the schedule and the sizes of the reads and writes: there is a
bound on its steps, and it only stops with `str_cli` and `str_echo` returned and all of the input
come back. -/
theorem session_ends (sock : Sockfd) (toMem frMem : Memory) {capUp capDown : Nat}
    (hup : 0 < capUp) (hdown : 0 < capDown) (input : List UInt8) :
    (machine sock).Ends (36 * input.length + 23) (Echoed input)
      (start toMem frMem capUp capDown input) := by
  have hends := Machine.ends_of_measure (M := machine sock)
    (I := fun s => Inv sock input s ∧ Roomy s.path) (Q := Echoed input) (measure sock)
    (fun s e h hok => ⟨step_inv h.1 hok, roomy_did h.2 (step_did h.1.client hok)⟩)
    (fun s e h hok => measure_did h.1.client h.1.along (step_did h.1.client hok))
    (fun s h hstuck => h.1.echoed (returned_of_stuck h.1 h.2 hstuck) hstuck)
    (s := start toMem frMem capUp capDown input)
    ⟨start_session toMem frMem capUp capDown input, hup, hdown⟩
  have hmeasure : measure sock (start toMem frMem capUp capDown input) =
      36 * input.length + 23 := by
    unfold measure
    rw [phase_select rfl]
    simp [toGo, start, StrCli.start, held, EchoPath.start, EchoPath.State.work]
    omega
  rwa [hmeasure] at hends

theorem session_ends_one : (machine sock3).Ends 59 (Echoed [104]) (start blank blank 1 1 [104]) :=
  session_ends sock3 blank blank (by decide) (by decide) [104]

end
end StrCliEcho
end Unpvol1
