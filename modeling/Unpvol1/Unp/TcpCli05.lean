import Unpvol1.Lib.Progress
import Unpvol1.Unp.EchoPath

/-!
# Unp.TcpCli05

`str_cli` on `select` (`6chp/tcpcli05.c`) against the echo server. Its writes wait: while it is in
`write(sockfd, ..)` it does not read what comes back. Either direction of the connection holds at
least one byte, and what is written into it can be read at once.

* `Did`   — what a step can do.
* `Along` — what each place of the loop knows of the connection.
* `Apart` — how much can be under way at each place of the loop.
* `session_ends_iff` — every schedule ends with the input on standard output, just when the input is
  short or the way back holds enough. Otherwise some schedule ends with client and server each in a
  `write` that the other would have to read.
-/

namespace Unpvol1
namespace TcpCli05

def MAXLINE : Nat := 1024

/-- `rset`: whether `fileno(fp)` and `sockfd` are in it. -/
structure FdSet where
  fp : Bool
  sockfd : Bool
deriving DecidableEq

/-- Where `str_cli` is: in `select`, in the `read` of the socket or of standard input, or in
`write(sockfd, buf, n)` with `left` still to be taken. -/
inductive Pc where
  | select
  | socket
  | stdin
  | writing (left : List UInt8)
  | returned
  | exited
deriving DecidableEq

structure State where
  stdineof : Bool
  rset : FdSet
  pc : Pc
  stdin : List UInt8
  stdout : List UInt8
  path : EchoPath.State

inductive Event where
  /-- What `select` reports. -/
  | select (rset : FdSet)
  /-- The value of the `read` that `str_cli` is in. -/
  | read (n : Nat)
  /-- The kernel takes `n` more bytes of the `write` to the socket. -/
  | write (n : Nat)
  | server (e : EchoPath.Event)

/-- `if (FD_ISSET(fileno(fp), &rset))` -/
def FdSet.second (rset : FdSet) : Pc := if rset.fp then .stdin else .select

/-- `if (FD_ISSET(sockfd, &rset))` -/
def FdSet.first (rset : FdSet) : Pc := if rset.sockfd then .socket else rset.second

def readSocket (n : Nat) (s : State) : State :=
  if n = 0 then { s with pc := if s.stdineof then .returned else .exited }
  else
    { s with
      stdout := s.stdout ++ s.path.down.data.take n
      path := s.path.recv n
      pc := s.rset.second }

def readStdin (n : Nat) (s : State) : State :=
  if n = 0 then
    { s with
      stdineof := true
      path := s.path.shutdown
      rset := { s.rset with fp := false }
      pc := .select }
  else { s with pc := .writing (s.stdin.take n), stdin := s.stdin.drop n }

def step (s : State) : Event → State
  | .select rset => { s with rset := rset, pc := rset.first }
  | .read n =>
    match s.pc with
    | .socket => readSocket n s
    | .stdin => readStdin n s
    | _ => s
  | .write n =>
    match s.pc with
    | .writing left =>
      { s with
        path := s.path.send (left.take n)
        pc := if left.length = n then .select else .writing (left.drop n) }
    | _ => s
  | .server e => { s with path := EchoPath.step s.path e }

/-- `select` waits until something is ready and reports the socket as it is. A `read` of the socket
brings all there is, up to `MAXLINE`; standard input may bring less. -/
def ok (s : State) : Event → Prop
  | .select rset => s.pc = .select ∧ (rset.fp = true ∨ rset.sockfd = true) ∧
      (rset.fp = true → s.stdineof = false) ∧ (rset.sockfd = true ↔ s.path.down.Readable)
  | .read n =>
    match s.pc with
    | .socket => n = min MAXLINE s.path.down.data.length
    | .stdin => n ≤ MAXLINE ∧ n ≤ s.stdin.length ∧ (n = 0 → s.stdin = [])
    | _ => False
  | .write n =>
    match s.pc with
    | .writing left => s.path.up.Writes left.length n
    | _ => False
  | .server e => EchoPath.ok s.path e

def machine : Machine State Event := ⟨step, ok⟩

def start (capUp capDown : Nat) (input : List UInt8) : State where
  stdineof := false
  rset := ⟨false, false⟩
  pc := .select
  stdin := input
  stdout := []
  path := EchoPath.start capUp capDown

/-- What has been read from standard input and not yet been taken by the socket. -/
def Pc.left : Pc → List UInt8
  | .writing left => left
  | _ => []

section
variable {s : State}

/-! ## What a step can do -/

inductive Did (s : State) : State → Prop where
  | server (e : EchoPath.Event) (hok : EchoPath.ok s.path e) :
      Did s { s with path := EchoPath.step s.path e }
  | select (rset : FdSet) (hpc : s.pc = .select) (hne : rset.fp = true ∨ rset.sockfd = true)
      (hfp : rset.fp = true → s.stdineof = false)
      (hsock : rset.sockfd = true ↔ s.path.down.Readable) :
      Did s { s with rset := rset, pc := rset.first }
  | ended (hpc : s.pc = .socket) (hdata : s.path.down.data = []) :
      Did s { s with pc := if s.stdineof then .returned else .exited }
  | fetch (n : Nat) (hpc : s.pc = .socket) (hpos : 0 < n)
      (hn : n = min MAXLINE s.path.down.data.length) :
      Did s { s with
        stdout := s.stdout ++ s.path.down.data.take n
        path := s.path.recv n
        pc := s.rset.second }
  | eof (hpc : s.pc = .stdin) (hend : s.stdin = []) :
      Did s { s with
        stdineof := true
        path := s.path.shutdown
        rset := { s.rset with fp := false }
        pc := .select }
  | fill (n : Nat) (hpc : s.pc = .stdin) (hpos : 0 < n) (hmax : n ≤ MAXLINE)
      (hn : n ≤ s.stdin.length) :
      Did s { s with pc := .writing (s.stdin.take n), stdin := s.stdin.drop n }
  | push (left : List UInt8) (n : Nat) (hpc : s.pc = .writing left) (hpos : 0 < n)
      (hn : n ≤ left.length) (hroom : n ≤ s.path.up.room) :
      Did s { s with
        path := s.path.send (left.take n)
        pc := if left.length = n then .select else .writing (left.drop n) }

theorem step_did {e : Event} (hok : machine.ok s e) : Did s (machine.step s e) := by
  cases e with
  | server e => exact .server e hok
  | select rset =>
    obtain ⟨hpc, hne, hfp, hsock⟩ := hok
    exact .select rset hpc hne hfp hsock
  | read n =>
    show Did s (step s (.read n))
    have hok : ok s (.read n) := hok
    cases hpc : s.pc with
    | socket =>
      simp only [ok, hpc] at hok
      simp only [step, hpc, readSocket]
      split
      · rename_i h0
        refine .ended hpc (List.length_eq_zero_iff.mp ?_)
        have : MAXLINE = 1024 := rfl
        omega
      · exact .fetch n hpc (by omega) hok
    | stdin =>
      simp only [ok, hpc] at hok
      simp only [step, hpc, readStdin]
      split
      · rename_i h0
        exact .eof hpc (hok.2.2 h0)
      · exact .fill n hpc (by omega) hok.1 hok.2.1
    | _ => simp [ok, hpc] at hok
  | write n =>
    show Did s (step s (.write n))
    have hok : ok s (.write n) := hok
    cases hpc : s.pc with
    | writing left =>
      simp only [ok, hpc] at hok
      simp only [step, hpc]
      exact .push left n hpc hok.1 hok.2.1 hok.2.2
    | _ => simp [ok, hpc] at hok

/-! ## The bytes -/

/-- Everything standard input has brought is, in this order, on standard output, under way, or still
to be taken by the socket. -/
def Bytes (input : List UInt8) (s : State) : Prop :=
  s.stdout ++ s.path.content ++ s.pc.left ++ s.stdin = input

@[simp] theorem left_select : Pc.select.left = [] := rfl
@[simp] theorem left_socket : Pc.socket.left = [] := rfl
@[simp] theorem left_stdin : Pc.stdin.left = [] := rfl
@[simp] theorem left_returned : Pc.returned.left = [] := rfl
@[simp] theorem left_writing (left : List UInt8) : (Pc.writing left).left = left := rfl

theorem left_second (rset : FdSet) : rset.second.left = [] := by
  unfold FdSet.second
  split <;> rfl

theorem left_first (rset : FdSet) : rset.first.left = [] := by
  unfold FdSet.first
  split
  · rfl
  · exact left_second rset

theorem left_pushed (left : List UInt8) (n : Nat) :
    (if left.length = n then Pc.select else .writing (left.drop n)).left = left.drop n := by
  split
  · rename_i h
    rw [← h, List.drop_length]
    rfl
  · rfl

section
variable {s' : State}

theorem Bytes.did {input : List UInt8} (h : Bytes input s) (hd : Did s s') : Bytes input s' := by
  unfold Bytes at *
  cases hd with
  | server e hok => rwa [EchoPath.step_content hok]
  | select rset hpc =>
    rw [hpc] at h
    rwa [left_first]
  | ended hpc hdata =>
    rw [hpc] at h
    cases s.stdineof <;> exact h
  | fetch n hpc hpos hn =>
    rw [hpc] at h
    rw [left_second, List.append_assoc s.stdout, EchoPath.recv_content]
    exact h
  | eof hpc hend =>
    rw [hpc] at h
    exact h
  | fill n hpc hpos hmax hn =>
    rw [hpc] at h
    simpa [Pc.left] using h
  | push left n hpc hpos hn hroom =>
    have hlen : (left.take n).length ≤ s.path.up.room :=
      Nat.le_trans (List.length_take_le _ _) hroom
    rw [hpc] at h
    rw [left_pushed, EchoPath.send_content hlen]
    simpa [Pc.left] using h

/-! ## The loop and the connection -/

structure Along (s : State) : Prop where
  path : EchoPath.Sound s.path
  eof : s.stdineof = true → s.stdin = []
  fin : s.path.up.fin = s.stdineof
  place : s.pc ≠ .exited
  back : s.pc = .returned → s.path.content = [] ∧ s.stdineof = true
  ready : s.pc = .socket → s.path.down.Readable
  fp : s.pc = .socket → s.rset.fp = true → s.stdineof = false
  stdin : s.pc = .stdin → s.stdineof = false
  left : ∀ left, s.pc = .writing left → left ≠ [] ∧ s.stdineof = false

theorem second_cases (rset : FdSet) :
    (rset.fp = true ∧ rset.second = .stdin) ∨ rset.second = .select := by
  unfold FdSet.second
  cases rset.fp with
  | true => exact .inl ⟨rfl, rfl⟩
  | false => exact .inr rfl

theorem first_cases {rset : FdSet} (h : rset.fp = true ∨ rset.sockfd = true) :
    (rset.sockfd = true ∧ rset.first = .socket) ∨
      (rset.sockfd = false ∧ rset.fp = true ∧ rset.first = .stdin) := by
  unfold FdSet.first FdSet.second
  cases hs : rset.sockfd with
  | true => exact .inl ⟨rfl, rfl⟩
  | false =>
    have hfp := h.resolve_right (by simp [hs])
    exact .inr ⟨rfl, hfp, by simp [hfp]⟩

theorem Along.did (h : Along s) (hd : Did s s') : Along s' := by
  cases hd with
  | server e hok =>
    refine ⟨EchoPath.step_sound h.path hok, h.eof, ?_, h.place, ?_, ?_, h.fp, h.stdin, h.left⟩
    · rw [EchoPath.step_fin]
      exact h.fin
    · rw [EchoPath.step_content hok]
      exact h.back
    · exact fun hpc => EchoPath.step_readable hok (h.ready hpc)
  | select rset hpc hne hfp hsock =>
    obtain ⟨hset, hpc'⟩ | ⟨hset, hset', hpc'⟩ := first_cases hne
    · rw [hpc']
      exact ⟨h.path, h.eof, h.fin, by simp, by simp, fun _ => hsock.mp hset, fun _ => hfp, by simp,
        by simp⟩
    · rw [hpc']
      exact ⟨h.path, h.eof, h.fin, by simp, by simp, by simp, by simp, fun _ => hfp hset', by simp⟩
  | ended hpc hdata =>
    -- the way back only ends when the server has seen the FIN
    have hfin := (h.ready hpc).resolve_left (· hdata)
    obtain ⟨hcontent, hup⟩ := h.path.ended ⟨hdata, hfin⟩
    have heof : s.stdineof = true := h.fin ▸ hup
    have hpc' : (if s.stdineof = true then Pc.returned else .exited) = .returned := if_pos heof
    rw [hpc']
    exact ⟨h.path, h.eof, h.fin, by simp, fun _ => ⟨hcontent, heof⟩, by simp, by simp, by simp,
      by simp⟩
  | fetch n hpc hpos hn =>
    obtain ⟨hset, hpc'⟩ | hpc' := second_cases s.rset
    · rw [hpc']
      exact ⟨h.path.recv, h.eof, h.fin, by simp, by simp, by simp, by simp, fun _ => h.fp hpc hset,
        by simp⟩
    · rw [hpc']
      exact ⟨h.path.recv, h.eof, h.fin, by simp, by simp, by simp, by simp, by simp, by simp⟩
  | eof hpc hend =>
    exact ⟨h.path.shutdown, fun _ => hend, rfl, by simp, by simp, by simp, by simp, by simp,
      by simp⟩
  | fill n hpc hpos hmax hn =>
    have heof := h.stdin hpc
    refine ⟨h.path, by simp [heof], h.fin, by simp, by simp, by simp, by simp, by simp, ?_⟩
    rintro left hleft
    cases hleft
    refine ⟨?_, heof⟩
    rw [← List.length_pos_iff, List.length_take]
    omega
  | push left n hpc hpos hn hroom =>
    obtain ⟨hne, heof⟩ := h.left left hpc
    have hpath : EchoPath.Sound (s.path.send (left.take n)) := h.path.send (h.fin.trans heof)
    by_cases hall : left.length = n
    · rw [if_pos hall]
      exact ⟨hpath, h.eof, h.fin, by simp, by simp, by simp, by simp, by simp, by simp⟩
    · rw [if_neg hall]
      refine ⟨hpath, h.eof, h.fin, by simp, by simp, by simp, by simp, by simp, ?_⟩
      rintro left' hleft
      cases hleft
      refine ⟨?_, heof⟩
      rw [← List.length_pos_iff, List.length_drop]
      omega

/-! ## What is under way -/

/-- What may be added before the next `select`. -/
def Pc.reserve : Pc → Nat
  | .stdin => MAXLINE
  | .writing left => left.length
  | _ => 0

@[simp] theorem reserve_select : Pc.select.reserve = 0 := rfl
@[simp] theorem reserve_socket : Pc.socket.reserve = 0 := rfl
@[simp] theorem reserve_stdin : Pc.stdin.reserve = MAXLINE := rfl
@[simp] theorem reserve_writing (left : List UInt8) : (Pc.writing left).reserve = left.length := rfl

/-- With the way back empty there is at most what the way there and `str_echo` hold, and `str_cli`
adds at most `MAXLINE` before it looks at the way back again. With more than `MAXLINE` on the way
back, it reads as much as it adds. -/
def Apart (s : State) : Prop :=
  s.path.content.length + s.pc.reserve ≤
    s.path.up.cap + min StrEcho.MAXLINE s.path.up.cap + MAXLINE

theorem Apart.did (h : Apart s) (ha : Along s) (hd : Did s s') : Apart s' := by
  have hlen := ha.path.length_le
  unfold Apart at *
  cases hd with
  | server e hok =>
    rw [EchoPath.step_content hok, (EchoPath.step_caps s.path e).1]
    exact h
  | select rset hpc hne hfp hsock =>
    obtain ⟨hset, hpc'⟩ | ⟨hset, hset', hpc'⟩ := first_cases hne
    · rw [hpc']
      rw [hpc] at h
      exact h
    · have hdata : s.path.down.data = [] := by
        by_contra hne
        have := hsock.mpr (.inl hne)
        simp [hset] at this
      rw [hdata, List.length_nil] at hlen
      rw [hpc']
      simp only [reserve_stdin] at h ⊢
      omega
  | ended hpc hdata =>
    rw [hpc] at h
    cases s.stdineof <;> exact h
  | fetch n hpc hpos hn =>
    have hcontent := congrArg List.length (EchoPath.recv_content (s := s.path) n)
    rw [List.length_append, List.length_take] at hcontent
    rw [hpc] at h
    have hup : (s.path.recv n).up.cap = s.path.up.cap := rfl
    obtain ⟨hset, hpc'⟩ | hpc' := second_cases s.rset
    · rw [hpc']
      simp only [reserve_socket, reserve_stdin] at h ⊢
      omega
    · rw [hpc']
      simp only [reserve_select, reserve_socket] at h ⊢
      omega
  | eof hpc hend =>
    rw [hpc] at h
    have hup : s.path.shutdown.up.cap = s.path.up.cap := rfl
    simp only [EchoPath.shutdown_content, reserve_stdin, reserve_select] at h ⊢
    omega
  | fill n hpc hpos hmax hn =>
    rw [hpc] at h
    simp only [reserve_stdin, reserve_writing, List.length_take] at h ⊢
    omega
  | push left n hpc hpos hn hroom =>
    have htake : (left.take n).length ≤ s.path.up.room :=
      Nat.le_trans (List.length_take_le _ _) hroom
    have hup : (s.path.send (left.take n)).up.cap = s.path.up.cap := rfl
    rw [hpc] at h
    simp only [EchoPath.send_content htake, List.length_append, List.length_take,
      reserve_writing] at h ⊢
    split
    · rw [reserve_select]
      omega
    · rw [reserve_writing, List.length_drop]
      omega

/-! ## Every step moves on -/

/-- How far the bytes have to go, counted in hops, and the two ends of file. -/
def toGo (s : State) : Nat :=
  6 * s.stdin.length + 5 * s.pc.left.length + s.path.work + (if s.stdineof then 0 else 1) +
    if s.pc = .returned then 0 else 1

/-- A `select` is followed by something that moves. -/
def measure (s : State) : Nat := 2 * toGo s + if s.pc = .select then 1 else 0

theorem measure_lt (h : toGo s' < toGo s) : measure s' < measure s := by
  unfold measure
  split <;> split <;> omega

theorem measure_did (h : Along s) (hd : Did s s') : measure s' < measure s := by
  cases hd with
  | server e hok =>
    have hwork := EchoPath.step_work hok
    refine measure_lt ?_
    simp only [toGo]
    omega
  | select rset hpc hne =>
    obtain ⟨_, hpc'⟩ | ⟨_, _, hpc'⟩ := first_cases hne
    · simp [measure, toGo, hpc, hpc']
    · simp [measure, toGo, hpc, hpc']
  | ended hpc hdata =>
    have hfin := (h.ready hpc).resolve_left (· hdata)
    have heof : s.stdineof = true := h.fin ▸ (h.path.ended ⟨hdata, hfin⟩).2
    refine measure_lt ?_
    simp [toGo, hpc, heof]
  | fetch n hpc hpos hn =>
    have hwork := EchoPath.recv_work (s := s.path) (n := n) (by omega)
    have hret : s.rset.second ≠ .returned := by
      obtain ⟨_, hpc'⟩ | hpc' := second_cases s.rset <;> simp [hpc']
    refine measure_lt ?_
    simp only [toGo, hpc, left_second, hret, left_socket, reduceCtorEq, if_false]
    omega
  | eof hpc hend =>
    have heof := h.stdin hpc
    refine measure_lt ?_
    simp only [toGo, hpc, heof, left_stdin, left_select, EchoPath.shutdown_work, reduceCtorEq,
      Bool.false_eq_true, if_true, if_false]
    omega
  | fill n hpc hpos hmax hn =>
    refine measure_lt ?_
    simp only [toGo, hpc, left_stdin, left_writing, List.length_drop, List.length_take,
      List.length_nil, reduceCtorEq, if_false]
    omega
  | push left n hpc hpos hn hroom =>
    have htake : (left.take n).length ≤ s.path.up.room :=
      Nat.le_trans (List.length_take_le _ _) hroom
    have hwork := EchoPath.send_work htake
    have hret : (if left.length = n then Pc.select else .writing (left.drop n)) ≠ .returned := by
      split <;> simp
    refine measure_lt ?_
    simp only [toGo, hpc, left_pushed, hret, left_writing, List.length_drop, reduceCtorEq,
      if_false]
    rw [List.length_take] at hwork
    omega

/-! ## Where a session stops -/

/-- Client and server are each in a `write`, and neither can go on before the other reads. -/
structure Jammed (s : State) : Prop where
  client : s.pc.left ≠ []
  up : s.path.up.room = 0
  server : s.path.serv.held ≠ []
  down : s.path.down.room = 0

theorem Jammed.content (h : Jammed s) :
    s.path.up.cap + s.path.down.cap + 2 ≤ s.path.content.length + s.pc.left.length := by
  have hclient := List.length_pos_iff.mpr h.client
  have hserver := List.length_pos_iff.mpr h.server
  have hup := s.path.up.length_eq
  have hdown := s.path.down.length_eq
  rw [h.up] at hup
  rw [h.down] at hdown
  simp only [EchoPath.State.content, List.length_append]
  omega

theorem Jammed.stuck (h : Jammed s) (ha : Along s) : machine.Stuck s := by
  intro e hok
  have hserv := (EchoPath.waits_iff ha.path).mpr (.inr (.inl ⟨h.server, h.down⟩))
  have hd := step_did hok
  generalize machine.step s e = s' at hd
  cases hd with
  | server e hok => exact hserv e hok
  | push left n hpc hpos hn hroom =>
    have := h.up
    omega
  | select rset hpc => exact h.client (by rw [hpc]; rfl)
  | ended hpc => exact h.client (by rw [hpc]; rfl)
  | fetch n hpc => exact h.client (by rw [hpc]; rfl)
  | eof hpc => exact h.client (by rw [hpc]; rfl)
  | fill n hpc => exact h.client (by rw [hpc]; rfl)

/-- Both connections can hold something. -/
def Roomy (path : EchoPath.State) : Prop := 0 < path.up.cap ∧ 0 < path.down.cap

/-- A session stops with the return of `str_cli`, or jammed. -/
theorem stuck_cases (h : Along s) (hroomy : Roomy s.path) (hstuck : machine.Stuck s) :
    s.pc = .returned ∨ Jammed s := by
  have hserv : ∀ e, ¬EchoPath.ok s.path e := fun e => hstuck (.server e)
  cases hpc : s.pc with
  | returned => exact .inl rfl
  | exited => exact absurd hpc h.place
  | select =>
    have hread : s.path.down.Readable := by
      by_contra hno
      have hdata : s.path.down.data = [] := by
        by_contra hne
        exact hno (.inl hne)
      have heof : s.stdineof = true := by
        by_contra hne
        refine hstuck (.select ⟨true, false⟩) ⟨hpc, .inl rfl, fun _ => ?_, by simp [hno]⟩
        exact Bool.eq_false_iff.mpr hne
      obtain ⟨_, hup⟩ | ⟨_, hfull⟩ | hret := (EchoPath.waits_iff h.path).mp hserv
      · exact hup (.inr (h.fin.trans heof))
      · have := s.path.down.length_eq
        rw [hdata, hfull] at this
        have := hroomy.2
        simp only [List.length_nil] at *
        omega
      · exact hno (.inr (h.path.returned_iff.mp hret))
    exact absurd ⟨hpc, .inr rfl, by simp, by simp [hread]⟩ (hstuck (.select ⟨false, true⟩))
  | socket =>
    exact absurd (by simp [machine, ok, hpc]) (hstuck (.read (min MAXLINE s.path.down.data.length)))
  | stdin =>
    refine absurd ?_ (hstuck (.read (min 1 s.stdin.length)))
    have hmax : MAXLINE = 1024 := rfl
    simp only [machine, ok, hpc]
    refine ⟨by omega, by omega, fun h0 => List.length_eq_zero_iff.mp (by omega)⟩
  | writing left =>
    have hne := (h.left left hpc).1
    have hup : s.path.up.room = 0 := by
      by_contra hroom
      have hlen := List.length_pos_iff.mpr hne
      refine hstuck (.write 1) ?_
      simp only [machine, ok, hpc]
      exact ⟨Nat.one_pos, hlen, by omega⟩
    have hdata : s.path.up.data ≠ [] := by
      intro hnil
      have := s.path.up.length_eq
      rw [hnil, hup] at this
      have := hroomy.1
      simp only [List.length_nil] at *
      omega
    obtain ⟨_, hno⟩ | ⟨hheld, hdown⟩ | hret := (EchoPath.waits_iff h.path).mp hserv
    · exact absurd (.inl hdata) hno
    · exact .inr ⟨by rw [hpc]; exact hne, hup, hheld, hdown⟩
    · exact absurd (h.path.atEnd hret).1 hdata

/-! ## How a session jams -/

/-- How much is where: on the way there, with the server, on the way back, with the client, and to
come from standard input. -/
structure Load (s : State) (u h d l r : Nat) : Prop where
  up : s.path.up.data.length = u
  serv : (h = 0 ∧ s.path.serv = .reading) ∨
    (0 < h ∧ ∃ left, s.path.serv = .writing left ∧ left.length = h)
  down : s.path.down.data.length = d ∧ s.path.down.fin = false
  pc : (l = 0 ∧ s.pc = .select) ∨ (0 < l ∧ ∃ left, s.pc = .writing left ∧ left.length = l)
  stdin : s.stdin.length = r ∧ s.stdineof = false

/-- Some schedule leads to a state with this load. -/
def Loads (s₀ : State) (capUp capDown u h d l r : Nat) : Prop :=
  ∃ s, machine.Reaches s₀ s ∧ s.path.up.cap = capUp ∧ s.path.down.cap = capDown ∧
    Load s u h d l r

section
variable {s₀ : State} {capUp capDown u h d l r n : Nat}

/-- `str_cli` reads `n` bytes while nothing comes back. -/
theorem Loads.fill (hl : Loads s₀ capUp capDown u h 0 0 r) (hpos : 0 < n) (hmax : n ≤ MAXLINE)
    (hn : n ≤ r) : Loads s₀ capUp capDown u h 0 n (r - n) := by
  obtain ⟨s, hr, hup, hdown, hs⟩ := hl
  have hpc : s.pc = .select := by
    obtain ⟨_, hpc⟩ | ⟨h0, _⟩ := hs.pc
    · exact hpc
    · omega
  have hdata : s.path.down.data = [] := List.length_eq_zero_iff.mp hs.down.1
  have hselect : machine.ok s (.select ⟨true, false⟩) :=
    ⟨hpc, .inl rfl, fun _ => hs.stdin.2, by simp [Channel.Readable, hdata, hs.down.2]⟩
  have hlen := hs.stdin.1
  have hread : machine.ok (machine.step s (.select ⟨true, false⟩)) (.read n) :=
    ⟨hmax, by show n ≤ s.stdin.length; omega, fun h0 => by omega⟩
  refine ⟨_, (hr.trans (.step hselect)).trans (.step hread), ?_⟩
  have hstep : machine.step (machine.step s (.select ⟨true, false⟩)) (.read n) =
      { s with
        rset := ⟨true, false⟩
        pc := .writing (s.stdin.take n)
        stdin := s.stdin.drop n } := by
    show readStdin n _ = _
    rw [readStdin, if_neg (Nat.ne_of_gt hpos)]
    rfl
  rw [hstep]
  refine ⟨hup, hdown, ⟨hs.up, hs.serv, hs.down, .inr ⟨hpos, _, rfl, ?_⟩, ?_, hs.stdin.2⟩⟩
  · rw [List.length_take]
    omega
  · rw [List.length_drop]
    omega

/-- The socket takes `n` bytes of the client's `write`. -/
theorem Loads.push (hl : Loads s₀ capUp capDown u h d l r) (hpos : 0 < n) (hn : n ≤ l)
    (hroom : u + n ≤ capUp) : Loads s₀ capUp capDown (u + n) h d (l - n) r := by
  obtain ⟨s, hr, hup, hdown, hs⟩ := hl
  obtain ⟨h0, _⟩ | ⟨_, left, hpc, hlen⟩ := hs.pc
  · omega
  have hspace := s.path.up.length_eq
  rw [hs.up, hup] at hspace
  have htake : (left.take n).length ≤ s.path.up.room := by
    rw [List.length_take]
    omega
  have hwrite : machine.ok s (.write n) := by
    simp only [machine, ok, hpc]
    exact ⟨hpos, by omega, by omega⟩
  refine ⟨_, hr.trans (.step hwrite), ?_⟩
  have hstep : machine.step s (.write n) =
      { s with
        path := s.path.send (left.take n)
        pc := if left.length = n then .select else .writing (left.drop n) } := by
    simp only [machine, step, hpc]
  rw [hstep]
  refine ⟨hup, hdown, ⟨?_, hs.serv, hs.down, ?_, hs.stdin⟩⟩
  · show (s.path.up.push (left.take n)).data.length = u + n
    rw [Channel.push_data htake, List.length_append, List.length_take, hs.up]
    omega
  · by_cases hall : left.length = n
    · exact .inl ⟨by omega, if_pos hall⟩
    · refine .inr ⟨by omega, left.drop n, if_neg hall, ?_⟩
      rw [List.length_drop, hlen]

/-- The server reads `n` bytes. -/
theorem Loads.serverRead (hl : Loads s₀ capUp capDown u 0 d l r) (hpos : 0 < n)
    (hmax : n ≤ StrEcho.MAXLINE) (hn : n ≤ u) : Loads s₀ capUp capDown (u - n) n d l r := by
  obtain ⟨s, hr, hup, hdown, hs⟩ := hl
  obtain ⟨_, hserv⟩ | ⟨h0, _⟩ := hs.serv
  swap
  · omega
  have hlen := hs.up
  have hread : machine.ok s (.server (.read n)) :=
    ⟨hserv, hmax, by omega, fun h0 => by omega⟩
  refine ⟨_, hr.trans (.step hread), ?_⟩
  have hstep : machine.step s (.server (.read n)) =
      { s with path :=
        { s.path with up := s.path.up.pull n, serv := .writing (s.path.up.data.take n) } } := by
    obtain ⟨m, rfl⟩ := Nat.exists_eq_succ_of_ne_zero (Nat.ne_of_gt hpos)
    rfl
  rw [hstep]
  refine ⟨hup, hdown, ⟨?_, .inr ⟨hpos, _, rfl, ?_⟩, hs.down, hs.pc, hs.stdin⟩⟩
  · rw [Channel.pull_data, List.length_drop, hs.up]
  · rw [List.length_take]
    omega

/-- The server writes `n` bytes. -/
theorem Loads.serverWrite (hl : Loads s₀ capUp capDown u h d l r) (hpos : 0 < n) (hn : n ≤ h)
    (hroom : d + n ≤ capDown) : Loads s₀ capUp capDown u (h - n) (d + n) l r := by
  obtain ⟨s, hr, hup, hdown, hs⟩ := hl
  obtain ⟨h0, _⟩ | ⟨_, left, hserv, hlen⟩ := hs.serv
  · omega
  have hspace := s.path.down.length_eq
  rw [hs.down.1, hdown] at hspace
  have htake : (left.take n).length ≤ s.path.down.room := by
    rw [List.length_take]
    omega
  have hwrite : machine.ok s (.server (.write n)) := by
    show EchoPath.ok s.path (.write n)
    rw [EchoPath.ok, hserv]
    exact ⟨hpos, by show n ≤ left.length; omega, by omega⟩
  refine ⟨_, hr.trans (.step hwrite), ?_⟩
  have hstep : machine.step s (.server (.write n)) =
      { s with path :=
        { s.path with
          serv := if left.length = n then .reading else .writing (left.drop n)
          down := s.path.down.push (left.take n) } } := by
    simp only [machine, step, EchoPath.step, hserv]
  rw [hstep]
  refine ⟨hup, hdown, ⟨hs.up, ?_, ⟨?_, hs.down.2⟩, hs.pc, hs.stdin⟩⟩
  · by_cases hall : left.length = n
    · exact .inl ⟨by omega, if_pos hall⟩
    · refine .inr ⟨by omega, left.drop n, if_neg hall, ?_⟩
      rw [List.length_drop, hlen]
  · rw [Channel.push_data htake, List.length_append, List.length_take, hs.down.1]
    omega

/-- `n` bytes one by one, none of them read by the server. -/
theorem Loads.pushes (n : Nat) (hl : Loads s₀ capUp capDown u h 0 0 r) (hn : n ≤ r)
    (hroom : u + n ≤ capUp) : Loads s₀ capUp capDown (u + n) h 0 0 (r - n) := by
  induction n with
  | zero => exact hl
  | succ n ih =>
    have hone := ((ih (by omega) (by omega)).fill Nat.one_pos (by decide) (by omega)).push
      Nat.one_pos (Nat.le_refl 1) (by omega)
    rwa [Nat.sub_sub, Nat.add_assoc] at hone

/-- `n` bytes through the server one by one, while the client is in one `write`. -/
theorem Loads.shift (n : Nat) (hl : Loads s₀ capUp capDown capUp 0 d l r) (hcap : 0 < capUp)
    (hn : n ≤ l) (hroom : d + n ≤ capDown) :
    Loads s₀ capUp capDown capUp 0 (d + n) (l - n) r := by
  induction n with
  | zero => exact hl
  | succ n ih =>
    have hread := (ih (by omega) (by omega)).serverRead Nat.one_pos (by decide) hcap
    have hwrite := hread.serverWrite Nat.one_pos (Nat.le_refl 1) (by omega)
    have hpush := hwrite.push Nat.one_pos (by omega) (by omega)
    rwa [Nat.sub_add_cancel hcap, Nat.sub_self, Nat.sub_sub, Nat.add_assoc] at hpush

theorem Load.jammed {s : State} (h : Load s s.path.up.cap 1 s.path.down.cap 1 r) :
    Jammed s := by
  have hup := s.path.up.length_eq
  have hdown := s.path.down.length_eq
  rw [h.up] at hup
  rw [h.down.1] at hdown
  obtain ⟨h0, _⟩ | ⟨_, held, hserv, hheld⟩ := h.serv
  · omega
  obtain ⟨h0, _⟩ | ⟨_, left, hpc, hleft⟩ := h.pc
  · omega
  refine ⟨?_, by omega, ?_, by omega⟩
  · rw [hpc, ← List.length_pos_iff]
    exact Nat.lt_of_lt_of_eq Nat.one_pos hleft.symm
  · rw [hserv, ← List.length_pos_iff]
    exact Nat.lt_of_lt_of_eq Nat.one_pos hheld.symm

/-- The server takes `g` bytes into its buffer, the way there fills up behind it, and with nothing
on the way back yet `str_cli` goes into a last `write`. It stays there while the way back fills. -/
theorem jams {input : List UInt8} (hup : 0 < capUp) (hdown : 0 < capDown)
    (hlen : capUp + capDown + 2 ≤ input.length)
    (hback : capDown + 2 ≤ min StrEcho.MAXLINE capUp + MAXLINE) :
    ∃ s, machine.Reaches (start capUp capDown input) s ∧ Jammed s := by
  have hmax : MAXLINE = 1024 := rfl
  obtain ⟨c, hc, hcmax⟩ : ∃ c, c = min MAXLINE (capDown + 2) ∧ c ≤ MAXLINE :=
    ⟨_, rfl, Nat.min_le_left _ _⟩
  obtain ⟨g, hg⟩ : ∃ g, g + c = capDown + 2 := ⟨capDown + 2 - c, by omega⟩
  have h₀ : Loads (start capUp capDown input) capUp capDown 0 0 0 0 input.length :=
    ⟨_, .refl _, rfl, rfl, ⟨rfl, .inl ⟨rfl, rfl⟩, ⟨rfl, rfl⟩, .inl ⟨rfl, rfl⟩, ⟨rfl, rfl⟩⟩⟩
  have h₁ : Loads (start capUp capDown input) capUp capDown 0 g 0 0 (input.length - g) := by
    by_cases hg0 : g = 0
    · rwa [hg0]
    · have hread := (h₀.pushes g (by omega) (by omega)).serverRead (n := g) (by omega) (by omega)
        (by omega)
      rwa [Nat.zero_add, Nat.sub_self] at hread
  have h₂ := h₁.pushes capUp (by omega) (by omega)
  have h₃ := h₂.fill (n := c) (by omega) hcmax (by omega)
  rw [Nat.zero_add] at h₃
  have h₄ : Loads (start capUp capDown input) capUp capDown capUp 0 g c
      (input.length - g - capUp - c) := by
    by_cases hg0 : g = 0
    · rwa [hg0] at h₃ ⊢
    · have hwrite := h₃.serverWrite (n := g) (by omega) (Nat.le_refl g) (by omega)
      rwa [Nat.zero_add, Nat.sub_self] at hwrite
  have h₅ := h₄.shift (capDown - g) hup (by omega) (by omega)
  have hread := h₅.serverRead (n := 1) Nat.one_pos (by decide) hup
  obtain ⟨s, hr, rfl, rfl, hs⟩ := hread.push (n := 1) Nat.one_pos (by omega) (by omega)
  have hd : g + (s.path.down.cap - g) = s.path.down.cap := by omega
  have hl : c - (s.path.down.cap - g) - 1 = 1 := by omega
  rw [Nat.sub_add_cancel hup, hd, hl] at hs
  exact ⟨s, hr, hs.jammed⟩

end

end

/-! ## The session -/

structure Inv (input : List UInt8) (s : State) : Prop where
  bytes : Bytes input s
  along : Along s
  apart : Apart s

theorem step_inv {input : List UInt8} {s : State} (h : Inv input s) {e : Event}
    (hok : machine.ok s e) : Inv input (machine.step s e) :=
  have hd := step_did hok
  ⟨h.bytes.did hd, h.along.did hd, h.apart.did h.along hd⟩

theorem start_inv (capUp capDown : Nat) (input : List UInt8) :
    Inv input (start capUp capDown input) where
  bytes := rfl
  along := ⟨EchoPath.start_sound capUp capDown, by simp [start], rfl, by simp [start],
    by simp [start], by simp [start], by simp [start], by simp [start], by simp [start]⟩
  apart := Nat.zero_le _

/-- `str_cli` and `str_echo` have returned, and standard output has all that standard input
brought. -/
def Echoed (input : List UInt8) (s : State) : Prop :=
  s.pc = .returned ∧ s.path.serv = .returned ∧ s.stdout = input

theorem Inv.echoed {input : List UInt8} {s : State} (h : Inv input s) (hpc : s.pc = .returned)
    (hstuck : machine.Stuck s) : Echoed input s := by
  have hbytes := h.bytes
  obtain ⟨hcontent, heof⟩ := h.along.back hpc
  refine ⟨hpc, ?_, ?_⟩
  · exact h.along.path.returned_of_stuck hcontent (h.along.fin.trans heof)
      fun e => hstuck (.server e)
  · simpa [Bytes, hcontent, hpc, h.along.eof heof] using hbytes

/-- The input cannot fill both connections, or the way back holds what can be under way besides. -/
def Fits (capUp capDown : Nat) (input : List UInt8) : Prop :=
  input.length < capUp + capDown + 2 ∨ min StrEcho.MAXLINE capUp + MAXLINE < capDown + 2

instance (capUp capDown : Nat) (input : List UInt8) : Decidable (Fits capUp capDown input) :=
  inferInstanceAs (Decidable (_ ∨ _))

theorem not_jammed {input : List UInt8} {s : State} (h : Inv input s)
    (hfits : Fits s.path.up.cap s.path.down.cap input) : ¬Jammed s := by
  intro hj
  have hcontent := hj.content
  cases hfits with
  | inl hshort =>
    have hlen := congrArg List.length h.bytes
    simp only [List.length_append] at hlen
    omega
  | inr hroom =>
    have hreserve : s.pc.left.length ≤ s.pc.reserve := by
      cases s.pc with
      | writing left => exact Nat.le_refl _
      | _ => exact Nat.zero_le _
    have hapart := h.apart
    unfold Apart at hapart
    omega

theorem caps_did {s s' : State} (hd : Did s s') :
    s'.path.up.cap = s.path.up.cap ∧ s'.path.down.cap = s.path.down.cap := by
  cases hd with
  | server e hok => exact EchoPath.step_caps s.path e
  | _ => exact ⟨rfl, rfl⟩

/-- Every session ends with the whole input on standard output, whatever the schedule, just when the
input fits. With a longer input, and a way back of less than two lines, some schedule jams: client
and server each wait in a `write` that the other would have to read. -/
theorem session_ends_iff {capUp capDown : Nat} (hup : 0 < capUp) (hdown : 0 < capDown)
    (input : List UInt8) :
    (machine.Ends (12 * input.length + 7) (Echoed input) (start capUp capDown input) ↔
      Fits capUp capDown input) ∧
    (¬Fits capUp capDown input →
      ∃ s, machine.Reaches (start capUp capDown input) s ∧ Jammed s) := by
  have hjams : ¬Fits capUp capDown input →
      ∃ s, machine.Reaches (start capUp capDown input) s ∧ Jammed s := by
    intro hno
    obtain ⟨hlen, hback⟩ := not_or.mp hno
    exact jams hup hdown (Nat.le_of_not_lt hlen) (Nat.le_of_not_lt hback)
  refine ⟨⟨?_, ?_⟩, hjams⟩
  · intro hends
    by_contra hno
    obtain ⟨s, hr, hj⟩ := hjams hno
    obtain ⟨es, hv, rfl⟩ := id hr
    have hinv := Machine.run_inv (fun _ _ h hok => step_inv h hok)
      (start_inv capUp capDown input) hv
    have hret := (hends.of_reaches hr (hj.stuck hinv.along)).1
    exact hj.client (by rw [hret]; rfl)
  · intro hfits
    have hends := Machine.ends_of_measure (M := machine)
      (I := fun s => Inv input s ∧ s.path.up.cap = capUp ∧ s.path.down.cap = capDown)
      (Q := Echoed input) measure
      (fun s e h hok => by
        have hd := step_did hok
        obtain ⟨hu, hd'⟩ := caps_did hd
        exact ⟨step_inv h.1 hok, hu.trans h.2.1, hd'.trans h.2.2⟩)
      (fun s e h hok => measure_did h.1.along (step_did hok))
      (fun s h hstuck => by
        obtain ⟨hinv, rfl, rfl⟩ := h
        obtain hret | hj := stuck_cases hinv.along ⟨hup, hdown⟩ hstuck
        · exact hinv.echoed hret hstuck
        · exact absurd hj (not_jammed hinv hfits))
      (s := start capUp capDown input) ⟨start_inv capUp capDown input, rfl, rfl⟩
    have hmeasure : measure (start capUp capDown input) = 12 * input.length + 7 := by
      simp [measure, toGo, start, EchoPath.start, EchoPath.State.work]
      omega
    rwa [hmeasure] at hends

/-- Room for one byte on either way: three bytes end, four can jam. -/
theorem session_ends_iff_small :
    machine.Ends 43 (Echoed [104, 105, 10]) (start 1 1 [104, 105, 10]) ∧
      ∃ s, machine.Reaches (start 1 1 [104, 105, 106, 10]) s ∧ Jammed s := by
  constructor
  · exact (session_ends_iff Nat.one_pos Nat.one_pos [104, 105, 10]).1.mpr (by decide)
  · exact (session_ends_iff Nat.one_pos Nat.one_pos [104, 105, 106, 10]).2 (by decide)

end
end TcpCli05
end Unpvol1
