import Mathlib.Data.Finset.Basic
import Mathlib.Data.List.TakeWhile
import Unpvol1.Lib.Machine
import Unpvol1.Lib.Relay
import Unpvol1.Lib.Socket

/-!
# Unp.StrCli

The non-blocking `str_cli` (`16chp/strclinonb.c`): standard input to the socket through `to`, the
socket to standard output through `fr`, all in one `select` loop. A step of the machine is the
call of `select` or one of the four branches after it.

* `Buffer.fill`, `Buffer.drain` — the pointers after a read and after a write.
* `Held`     — a buffer holds what its direction has read and not yet written.
* `Finished` — where the one call of `Shutdown` stands in the log.
-/

namespace Unpvol1
namespace StrCli

def MAXLINE : Nat := 4096

def STDIN_FILENO : Int := 0

def STDOUT_FILENO : Int := 1

/-- The connected socket `str_cli` is called with. -/
structure Sockfd where
  fd : Int
  not_stdin : fd ≠ STDIN_FILENO
  not_stdout : fd ≠ STDOUT_FILENO

/-- `to` with `toiptr` and `tooptr`, or `fr` with `friptr` and `froptr`. -/
structure Buffer where
  mem : List UInt8
  iptr : Nat
  optr : Nat
deriving DecidableEq

namespace Buffer

/-- `iptr += n` after a read. -/
def fill (bs : List UInt8) (b : Buffer) : Buffer :=
  { b with mem := blit b.mem b.iptr bs, iptr := b.iptr + bs.length }

/-- `optr += nwritten`, and both back to the beginning of the buffer when they meet. -/
def drain (nwritten : Nat) (b : Buffer) : Buffer :=
  if b.optr + nwritten = b.iptr then { b with iptr := 0, optr := 0 }
  else { b with optr := b.optr + nwritten }

def pending (b : Buffer) : List UInt8 := slice b.mem b.optr b.iptr

end Buffer

inductive Act where
  | io (c : Call)
  | shutdown (fd : Int)
deriving DecidableEq

inductive Pc where
  | select
  | readStdin
  | readSocket
  | writeStdout
  | writeSocket
  | returned
  | exited
deriving DecidableEq

structure State where
  toBuf : Buffer
  frBuf : Buffer
  stdineof : Bool
  rset : Finset Int
  wset : Finset Int
  pc : Pc
  log : List Act

/-- What the environment answers to the calls of one step. `shut` is whether `shutdown` succeeds,
where it is called. -/
inductive Event where
  | select (ready : Option (Finset Int × Finset Int))
  | readStdin (o : RecvOutcome) (shut : Bool)
  | readSocket (o : RecvOutcome)
  | writeStdout (o : SendOutcome)
  | writeSocket (o : SendOutcome) (shut : Bool)

section
variable (sock : Sockfd)

/-! ## The loop -/

/-- `rset` before `select`. -/
def readSet (s : State) : Finset Int :=
  let rset := if s.stdineof = false ∧ s.toBuf.iptr < MAXLINE then {STDIN_FILENO} else ∅
  if s.frBuf.iptr < MAXLINE then insert sock.fd rset else rset

/-- `wset` before `select`. -/
def writeSet (s : State) : Finset Int :=
  let wset := if s.toBuf.optr ≠ s.toBuf.iptr then {sock.fd} else ∅
  if s.frBuf.optr ≠ s.frBuf.iptr then insert STDOUT_FILENO wset else wset

/-- `Select`; the wrapper exits when the call fails. -/
def select (ready : Option (Finset Int × Finset Int)) (s : State) : State :=
  match ready with
  | none => { s with rset := readSet sock s, wset := writeSet sock s, pc := .exited }
  | some (rset, wset) => { s with rset := rset, wset := wset, pc := .readStdin }

/-- `Shutdown(sockfd, SHUT_WR)`; the wrapper exits when the call fails. -/
def shutdown (shut : Bool) (s : State) : State :=
  { s with
    log := s.log ++ [.shutdown sock.fd]
    pc := if shut then s.pc else .exited }

def record (c : Call) (s : State) : State := { s with log := s.log ++ [.io c] }

def readStdin (o : RecvOutcome) (shut : Bool) (s : State) : State :=
  if STDIN_FILENO ∈ s.rset then
    let len := MAXLINE - s.toBuf.iptr
    let s' := record (.recv STDIN_FILENO len (recv len o)) { s with pc := .readSocket }
    match recv len o with
    | .err e => if e ≠ .again then { s' with pc := .exited } else s'
    | .got [] =>
      let s' := { s' with stdineof := true }
      if s'.toBuf.optr = s'.toBuf.iptr then shutdown sock shut s' else s'
    | .got bs => { s' with toBuf := s.toBuf.fill bs, wset := insert sock.fd s.wset }
  else { s with pc := .readSocket }

def readSocket (o : RecvOutcome) (s : State) : State :=
  if sock.fd ∈ s.rset then
    let len := MAXLINE - s.frBuf.iptr
    let s' := record (.recv sock.fd len (recv len o)) { s with pc := .writeStdout }
    match recv len o with
    | .err e => if e ≠ .again then { s' with pc := .exited } else s'
    | .got [] => { s' with pc := if s.stdineof then .returned else .exited }
    | .got bs => { s' with frBuf := s.frBuf.fill bs, wset := insert STDOUT_FILENO s.wset }
  else { s with pc := .writeStdout }

def writeStdout (o : SendOutcome) (s : State) : State :=
  let n := s.frBuf.iptr - s.frBuf.optr
  if STDOUT_FILENO ∈ s.wset ∧ 0 < n then
    let s' :=
      record (.send STDOUT_FILENO s.frBuf.pending (send n o)) { s with pc := .writeSocket }
    match send n o with
    | .err e => if e ≠ .again then { s' with pc := .exited } else s'
    | .took nwritten => { s' with frBuf := s.frBuf.drain nwritten }
  else { s with pc := .writeSocket }

def writeSocket (o : SendOutcome) (shut : Bool) (s : State) : State :=
  let n := s.toBuf.iptr - s.toBuf.optr
  if sock.fd ∈ s.wset ∧ 0 < n then
    let s' := record (.send sock.fd s.toBuf.pending (send n o)) { s with pc := .select }
    match send n o with
    | .err e => if e ≠ .again then { s' with pc := .exited } else s'
    | .took nwritten =>
      let s' := { s' with toBuf := s.toBuf.drain nwritten }
      if s.toBuf.optr + nwritten = s.toBuf.iptr ∧ s.stdineof then shutdown sock shut s' else s'
  else { s with pc := .select }

def step (s : State) : Event → State
  | .select ready => select sock ready s
  | .readStdin o shut => readStdin sock o shut s
  | .readSocket o => readSocket sock o s
  | .writeStdout o => writeStdout o s
  | .writeSocket o shut => writeSocket sock o shut s

/-- `select` reports registered descriptors only. -/
def ok (s : State) : Event → Prop
  | .select none => s.pc = .select
  | .select (some (rset, wset)) =>
    s.pc = .select ∧ rset ⊆ readSet sock s ∧ wset ⊆ writeSet sock s
  | .readStdin _ _ => s.pc = .readStdin
  | .readSocket _ => s.pc = .readSocket
  | .writeStdout _ => s.pc = .writeStdout
  | .writeSocket _ _ => s.pc = .writeSocket

instance (s : State) : (e : Event) → Decidable (ok sock s e)
  | .select none => inferInstanceAs (Decidable (s.pc = .select))
  | .select (some (rset, wset)) =>
    inferInstanceAs (Decidable (s.pc = .select ∧ rset ⊆ readSet sock s ∧ wset ⊆ writeSet sock s))
  | .readStdin _ _ => inferInstanceAs (Decidable (s.pc = .readStdin))
  | .readSocket _ => inferInstanceAs (Decidable (s.pc = .readSocket))
  | .writeStdout _ => inferInstanceAs (Decidable (s.pc = .writeStdout))
  | .writeSocket _ _ => inferInstanceAs (Decidable (s.pc = .writeSocket))

def machine : Machine State Event := ⟨step sock, ok sock⟩

instance (s : State) (e : Event) : Decidable ((machine sock).ok s e) :=
  inferInstanceAs (Decidable (ok sock s e))

end

/-- What `char to[MAXLINE]` or `char fr[MAXLINE]` may contain on entry. -/
abbrev Memory := { mem : List UInt8 // mem.length = MAXLINE }

def start (toMem frMem : Memory) : State where
  toBuf := ⟨toMem, 0, 0⟩
  frBuf := ⟨frMem, 0, 0⟩
  stdineof := false
  rset := ∅
  wset := ∅
  pc := .select
  log := []

/-! ## Reading the log -/

def calls (log : List Act) : List Call :=
  log.filterMap fun
    | .io c => some c
    | .shutdown _ => none

/-- A `read` of `fd` returned 0. -/
def eofSeen (fd : Int) (log : List Act) : Bool :=
  log.any fun
    | .io (.recv e _ (.got [])) => e = fd
    | _ => false

/-- What happened from the first `shutdown` on. -/
def afterShutdown (fd : Int) (log : List Act) : List Act := log.dropWhile (· != .shutdown fd)

@[simp] theorem calls_nil : calls [] = [] := rfl

@[simp] theorem calls_append (log log' : List Act) :
    calls (log ++ log') = calls log ++ calls log' := List.filterMap_append

@[simp] theorem calls_io (c : Call) (log : List Act) : calls (.io c :: log) = c :: calls log := rfl

@[simp] theorem calls_shutdown (fd : Int) (log : List Act) :
    calls (.shutdown fd :: log) = calls log := rfl

@[simp] theorem eofSeen_append (fd : Int) (log log' : List Act) :
    eofSeen fd (log ++ log') = (eofSeen fd log || eofSeen fd log') := by
  simp [eofSeen]

/-! ## What a step can do -/

/-- The part of the state a step changes besides `rset`, `wset` and the place in the loop. -/
structure View where
  toBuf : Buffer
  frBuf : Buffer
  stdineof : Bool
  log : List Act

def State.view (s : State) : View := ⟨s.toBuf, s.frBuf, s.stdineof, s.log⟩

section
variable (sock : Sockfd)

inductive Did (v : View) : View → Prop where
  | idle : Did v v
  | recvFailed (fd : Int) (len : Nat) (e : Errno) (hlen : 0 < len) :
      Did v { v with log := v.log ++ [.io (.recv fd len (.err e))] }
  | sendFailed (fd : Int) (data : List UInt8) (e : Errno) :
      Did v { v with log := v.log ++ [.io (.send fd data (.err e))] }
  | stdinEof (len : Nat) (hlen : 0 < len) (heof : v.stdineof = false) :
      Did v { v with
        stdineof := true
        log := v.log ++ .io (.recv STDIN_FILENO len (.got [])) ::
          if v.toBuf.optr = v.toBuf.iptr then [.shutdown sock.fd] else [] }
  | stdinRead (len : Nat) (bs : List UInt8) (hlen : v.toBuf.iptr + len = MAXLINE)
      (hbs : 0 < bs.length ∧ bs.length ≤ len) (heof : v.stdineof = false) :
      Did v { v with
        toBuf := v.toBuf.fill bs
        log := v.log ++ [.io (.recv STDIN_FILENO len (.got bs))] }
  | socketEof (len : Nat) (hlen : 0 < len) :
      Did v { v with log := v.log ++ [.io (.recv sock.fd len (.got []))] }
  | socketRead (len : Nat) (bs : List UInt8) (hlen : v.frBuf.iptr + len = MAXLINE)
      (hbs : 0 < bs.length ∧ bs.length ≤ len) :
      Did v { v with
        frBuf := v.frBuf.fill bs
        log := v.log ++ [.io (.recv sock.fd len (.got bs))] }
  | stdoutWrote (nwritten : Nat) (hn : v.frBuf.optr + nwritten ≤ v.frBuf.iptr) :
      Did v { v with
        frBuf := v.frBuf.drain nwritten
        log := v.log ++ [.io (.send STDOUT_FILENO v.frBuf.pending (.took nwritten))] }
  | socketWrote (nwritten : Nat) (hn : v.toBuf.optr + nwritten ≤ v.toBuf.iptr)
      (hp : v.toBuf.optr < v.toBuf.iptr) :
      Did v { v with
        toBuf := v.toBuf.drain nwritten
        log := v.log ++ .io (.send sock.fd v.toBuf.pending (.took nwritten)) ::
          if v.toBuf.optr + nwritten = v.toBuf.iptr ∧ v.stdineof = true then
            [.shutdown sock.fd]
          else [] }

/-- A descriptor is in `rset` only while its buffer has room, and `STDIN_FILENO` only before end of
file, up to the branch that reads it. -/
structure Masks (s : State) : Prop where
  stdin : s.pc = .readStdin → STDIN_FILENO ∈ s.rset → s.stdineof = false ∧ s.toBuf.iptr < MAXLINE
  socket : s.pc = .readStdin ∨ s.pc = .readSocket → sock.fd ∈ s.rset → s.frBuf.iptr < MAXLINE

variable {sock} {s : State}

theorem stdin_mem_readSet (h : STDIN_FILENO ∈ readSet sock s) :
    s.stdineof = false ∧ s.toBuf.iptr < MAXLINE := by
  have hne : STDIN_FILENO ≠ sock.fd := fun he => sock.not_stdin he.symm
  unfold readSet at h
  by_contra hcon
  rw [if_neg hcon] at h
  split at h <;> simp [hne] at h

theorem socket_mem_readSet (h : sock.fd ∈ readSet sock s) : s.frBuf.iptr < MAXLINE := by
  unfold readSet at h
  by_contra hcon
  rw [if_neg hcon] at h
  split at h <;> simp [sock.not_stdin] at h

theorem readStdin_did (hm : Masks sock s) (hpc : s.pc = .readStdin) (o : RecvOutcome)
    (shut : Bool) : Did sock s.view (readStdin sock o shut s).view := by
  unfold readStdin
  split
  · rename_i hset
    obtain ⟨heof, hroom⟩ := hm.stdin hpc hset
    have hlen : 0 < MAXLINE - s.toBuf.iptr := by omega
    cases hr : recv (MAXLINE - s.toBuf.iptr) o with
    | err e =>
      simp only [hr]
      split <;> exact .recvFailed _ _ e hlen
    | got bs =>
      cases bs with
      | nil =>
        have hd := @Did.stdinEof sock s.view _ hlen heof
        by_cases he : s.toBuf.optr = s.toBuf.iptr
        · simpa [hr, he, shutdown, record, State.view] using hd
        · simpa [hr, he, shutdown, record, State.view] using hd
      | cons b bs =>
        simp only [hr]
        refine .stdinRead _ (b :: bs) ?_ ⟨by simp, recv_length hr⟩ heof
        simp only [State.view]
        omega
  · exact .idle

theorem readSocket_did (hm : Masks sock s) (hpc : s.pc = .readSocket) (o : RecvOutcome) :
    Did sock s.view (readSocket sock o s).view := by
  unfold readSocket
  split
  · rename_i hset
    have hroom := hm.socket (.inr hpc) hset
    have hlen : 0 < MAXLINE - s.frBuf.iptr := by omega
    cases hr : recv (MAXLINE - s.frBuf.iptr) o with
    | err e =>
      simp only [hr]
      split <;> exact .recvFailed _ _ e hlen
    | got bs =>
      simp only [hr]
      cases bs with
      | nil => exact .socketEof _ hlen
      | cons b bs =>
        refine .socketRead _ (b :: bs) ?_ ⟨by simp, recv_length hr⟩
        simp only [State.view]
        omega
  · exact .idle

theorem writeStdout_did (o : SendOutcome) : Did sock s.view (writeStdout o s).view := by
  unfold writeStdout
  simp only
  split
  · rename_i h
    cases hr : send (s.frBuf.iptr - s.frBuf.optr) o with
    | err e =>
      simp only
      split <;> exact .sendFailed _ _ e
    | took nwritten =>
      have hn := send_le hr
      refine .stdoutWrote nwritten ?_
      simp only [State.view]
      omega
  · exact .idle

theorem writeSocket_did (o : SendOutcome) (shut : Bool) :
    Did sock s.view (writeSocket sock o shut s).view := by
  unfold writeSocket
  simp only
  split
  · rename_i h
    cases hr : send (s.toBuf.iptr - s.toBuf.optr) o with
    | err e =>
      simp only
      split <;> exact .sendFailed _ _ e
    | took nwritten =>
      have hn := send_le hr
      have hd := @Did.socketWrote sock s.view nwritten
        (by simp only [State.view]; omega) (by simp only [State.view]; omega)
      by_cases he : s.toBuf.optr + nwritten = s.toBuf.iptr ∧ s.stdineof = true
      · simpa [he, shutdown, record, State.view] using hd
      · simpa [he, shutdown, record, State.view] using hd
  · exact .idle

theorem step_did (hm : Masks sock s) {e : Event} (hok : (machine sock).ok s e) :
    Did sock s.view ((machine sock).step s e).view := by
  cases e with
  | select ready =>
    cases ready with
    | none => exact .idle
    | some ready => exact .idle
  | readStdin o shut => exact readStdin_did hm hok o shut
  | readSocket o => exact readSocket_did hm hok o
  | writeStdout o => exact writeStdout_did o
  | writeSocket o shut => exact writeSocket_did o shut

/-! ## The masks -/

@[simp] theorem record_pc (c : Call) : (record c s).pc = s.pc := rfl

/-- The branch of standard input leaves the socket's read alone. -/
theorem readStdin_frame (o : RecvOutcome) (shut : Bool) :
    (readStdin sock o shut s).rset = s.rset ∧ (readStdin sock o shut s).frBuf = s.frBuf ∧
      (readStdin sock o shut s).pc ≠ .readStdin := by
  unfold readStdin
  simp only
  split
  · split
    · split <;> exact ⟨rfl, rfl, by simp⟩
    · split
      · refine ⟨rfl, rfl, ?_⟩
        cases shut <;> simp [shutdown]
      · exact ⟨rfl, rfl, by simp⟩
    · exact ⟨rfl, rfl, by simp⟩
  · exact ⟨rfl, rfl, by simp⟩

/-- After the branch of the socket, no read follows before the next `select`. -/
def Pc.noRead (pc : Pc) : Prop := pc ≠ .readStdin ∧ pc ≠ .readSocket

theorem readSocket_pc (o : RecvOutcome) : (readSocket sock o s).pc.noRead := by
  unfold readSocket Pc.noRead
  simp only
  split
  · split
    · split <;> simp
    · cases s.stdineof <;> simp
    · simp
  · simp

theorem writeStdout_pc (o : SendOutcome) : (writeStdout o s).pc.noRead := by
  unfold writeStdout Pc.noRead
  simp only
  split
  · split
    · split <;> simp
    · simp
  · simp

theorem writeSocket_pc (o : SendOutcome) (shut : Bool) :
    (writeSocket sock o shut s).pc.noRead := by
  unfold writeSocket Pc.noRead
  simp only
  split
  · split
    · split <;> simp
    · split
      · cases shut <;> simp [shutdown]
      · simp
  · simp

theorem masks_of_noRead (h : s.pc.noRead) : Masks sock s where
  stdin := fun hpc => absurd hpc h.1
  socket := fun hpc => absurd hpc (by simp [h.1, h.2])

theorem step_masks (hm : Masks sock s) {e : Event} (hok : (machine sock).ok s e) :
    Masks sock ((machine sock).step s e) := by
  cases e with
  | select ready =>
    cases ready with
    | none => exact masks_of_noRead (s := select sock none s) ⟨by simp [select], by simp [select]⟩
    | some ready =>
      obtain ⟨_, hsub, _⟩ := hok
      exact ⟨fun _ h => stdin_mem_readSet (hsub h), fun _ h => socket_mem_readSet (hsub h)⟩
  | readStdin o shut =>
    obtain ⟨hset, hfr, hpc⟩ := @readStdin_frame sock s o shut
    have hin : s.pc = .readStdin := hok
    exact ⟨fun h => absurd h hpc, fun _ h => hfr ▸ hm.socket (.inl hin) (hset ▸ h)⟩
  | readSocket o => exact masks_of_noRead (readSocket_pc o)
  | writeStdout o => exact masks_of_noRead (writeStdout_pc o)
  | writeSocket o shut => exact masks_of_noRead (writeSocket_pc o shut)

/-! ## The two directions -/

/-- `b` holds what was read from `src` and is not yet written to `dst`. -/
def Held (src dst : Int) (b : Buffer) (log : List Act) : Prop :=
  ∃ R : Relay UInt8, R.received = received src (calls log) ∧
    R.accepted = accepted dst (calls log) ∧ Holds MAXLINE b.mem b.optr b.iptr R

section
variable {src dst : Int} {b : Buffer} {log : List Act}

theorem Held.fill (h : Held src dst b log) {bs : List UInt8} (len : Nat)
    (hbs : b.iptr + bs.length ≤ MAXLINE) :
    Held src dst (b.fill bs) (log ++ [.io (.recv src len (.got bs))]) := by
  obtain ⟨R, hr, ha, hh⟩ := h
  exact ⟨R.push bs, by simp [hr, Call.bytesIn], by simp [ha, Call.bytesOut], hh.push hbs⟩

theorem Held.drain (h : Held src dst b log) {n : Nat} (hn : b.optr + n ≤ b.iptr) :
    Held src dst (b.drain n) (log ++ [.io (.send dst b.pending (.took n))]) := by
  obtain ⟨R, hr, ha, hh⟩ := h
  have hacc : (R.pop n).accepted =
      accepted dst (calls (log ++ [.io (.send dst b.pending (.took n))])) := by
    simp [ha, Call.bytesOut, Buffer.pending, hh.slice_eq]
  refine ⟨R.pop n, by simp [hr, Call.bytesIn], hacc, ?_⟩
  unfold Buffer.drain
  split
  · rename_i hmeet
    exact (hh.pop hn).rewind (by omega)
  · exact hh.pop hn

/-- What passes over other descriptors does not concern the direction. -/
theorem Held.quiet (h : Held src dst b log) {acts : List Act}
    (hr : received src (calls acts) = []) (ha : accepted dst (calls acts) = []) :
    Held src dst b (log ++ acts) := by
  obtain ⟨R, hrec, hacc, hh⟩ := h
  exact ⟨R, by simp [hrec, hr], by simp [hacc, ha], hh⟩

end

/-- No `read` for no bytes. -/
def Asks (log : List Act) : Prop := ∀ c ∈ calls log, c.asksNothing = false

theorem Asks.append {log acts : List Act} (h : Asks log) (ha : Asks acts) :
    Asks (log ++ acts) := by
  intro c hc
  rw [calls_append, List.mem_append] at hc
  exact hc.elim (h c) (ha c)

theorem asks_io {c : Call} {acts : List Act} (hc : c.asksNothing = false)
    (ha : calls acts = []) : Asks (.io c :: acts) := by
  intro d hd
  rw [calls_io, ha, List.mem_singleton] at hd
  rw [hd, hc]

theorem asksNothing_recv {fd : Int} {len : Nat} {res : RecvResult} (h : 0 < len) :
    (Call.recv fd len res).asksNothing = false := by
  simp only [Call.asksNothing, decide_eq_false_iff_not]
  omega

/-- Both directions of the loop, and its reads. -/
structure Relayed (sock : Sockfd) (v : View) : Prop where
  up : Held STDIN_FILENO sock.fd v.toBuf v.log
  down : Held sock.fd STDOUT_FILENO v.frBuf v.log
  asks : Asks v.log

theorem calls_fin (p : Prop) [Decidable p] (fd : Int) :
    calls (if p then [.shutdown fd] else []) = [] := by
  split <;> rfl

/-- A step keeps both directions: it moves bytes in one of them and is silent in the other. -/
theorem Relayed.did {v v' : View} (h : Relayed sock v) (hd : Did sock v v') :
    Relayed sock v' := by
  have hin : STDIN_FILENO ≠ sock.fd := fun he => sock.not_stdin he.symm
  have hout : sock.fd ≠ STDOUT_FILENO := sock.not_stdout
  cases hd with
  | idle => exact h
  | recvFailed fd len e hlen =>
    exact ⟨h.up.quiet rfl rfl, h.down.quiet rfl rfl,
      h.asks.append (asks_io (asksNothing_recv hlen) rfl)⟩
  | sendFailed fd data e =>
    exact ⟨h.up.quiet rfl rfl, h.down.quiet rfl rfl, h.asks.append (asks_io rfl rfl)⟩
  | stdinEof len hlen heof =>
    refine ⟨h.up.quiet ?_ ?_, h.down.quiet ?_ ?_,
      h.asks.append (asks_io (asksNothing_recv hlen) (calls_fin _ _))⟩
    all_goals simp [calls_fin, Call.bytesIn, Call.bytesOut]
  | stdinRead len bs hlen hbs heof =>
    refine ⟨h.up.fill len (by omega), h.down.quiet ?_ rfl,
      h.asks.append (asks_io (asksNothing_recv (by omega)) rfl)⟩
    simp [Call.bytesIn, hin]
  | socketEof len hlen =>
    refine ⟨h.up.quiet ?_ rfl, h.down.quiet ?_ rfl,
      h.asks.append (asks_io (asksNothing_recv hlen) rfl)⟩
    all_goals simp [Call.bytesIn]
  | socketRead len bs hlen hbs =>
    refine ⟨h.up.quiet ?_ rfl, h.down.fill len (by omega),
      h.asks.append (asks_io (asksNothing_recv (by omega)) rfl)⟩
    simp [Call.bytesIn, hin.symm]
  | stdoutWrote nwritten hn =>
    refine ⟨h.up.quiet rfl ?_, h.down.drain hn, h.asks.append (asks_io rfl rfl)⟩
    simp [Call.bytesOut, hout.symm]
  | socketWrote nwritten hn hp =>
    have hacts : ∀ acts, calls acts = [] → Relayed sock
        { v with
          toBuf := v.toBuf.drain nwritten
          log := v.log ++ .io (.send sock.fd v.toBuf.pending (.took nwritten)) :: acts } := by
      intro acts hacts
      refine ⟨?_, h.down.quiet ?_ ?_, h.asks.append (asks_io rfl hacts)⟩
      · simpa using @Held.quiet _ _ _ _ (h.up.drain hn) acts (by simp [hacts]) (by simp [hacts])
      all_goals simp [hacts, Call.bytesIn, Call.bytesOut, hout]
    exact hacts _ (calls_fin _ _)

theorem start_relayed (toMem frMem : Memory) : Relayed sock (start toMem frMem).view where
  up := ⟨.fresh, rfl, rfl, .fresh toMem.2⟩
  down := ⟨.fresh, rfl, rfl, .fresh frMem.2⟩
  asks := by simp [Asks, start, State.view]

/-! ## The FIN -/

/-- `shutdown` was called once and nothing was written to `fd` after it. -/
def Sent (fd : Int) (log : List Act) : Prop :=
  log.count (.shutdown fd) = 1 ∧ accepted fd (calls (afterShutdown fd log)) = []

section
variable {fd : Int} {log acts : List Act}

theorem afterShutdown_eq_nil_iff : afterShutdown fd log = [] ↔ .shutdown fd ∉ log := by
  rw [afterShutdown, List.dropWhile_eq_nil_iff]
  constructor
  · intro hall hmem
    simpa using hall _ hmem
  · intro hno a ha
    have hne : a ≠ .shutdown fd := fun he => hno (he ▸ ha)
    simpa using hne

theorem afterShutdown_append_of_not_mem (h : .shutdown fd ∉ log) :
    afterShutdown fd (log ++ acts) = afterShutdown fd acts := by
  have hnil := afterShutdown_eq_nil_iff.mpr h
  unfold afterShutdown at *
  rw [List.dropWhile_append, hnil, List.isEmpty_nil, if_pos rfl]

theorem afterShutdown_append_of_mem (h : .shutdown fd ∈ log) :
    afterShutdown fd (log ++ acts) = afterShutdown fd log ++ acts := by
  have hne : afterShutdown fd log ≠ [] := fun hnil => afterShutdown_eq_nil_iff.mp hnil h
  unfold afterShutdown at *
  rw [List.dropWhile_append, if_neg]
  simpa using hne

theorem sent_now (h : .shutdown fd ∉ log) (c : Call) :
    Sent fd (log ++ [.io c, .shutdown fd]) := by
  constructor
  · simp [List.count_append, List.count_eq_zero_of_not_mem h]
  · rw [afterShutdown_append_of_not_mem h]
    simp [afterShutdown]

theorem Sent.mem (h : Sent fd log) : .shutdown fd ∈ log := by
  refine List.count_pos_iff.mp ?_
  rw [h.1]
  exact Nat.one_pos

theorem Sent.quiet (h : Sent fd log) {c : Call} (hc : c.bytesOut fd = []) :
    Sent fd (log ++ [.io c]) := by
  constructor
  · simp [List.count_append, h.1]
  · rw [afterShutdown_append_of_mem h.mem]
    simp [h.2, hc]

end

/-- The FIN has been sent when standard input is at end of file and `to` is drained, and not
before. -/
structure Finished (sock : Sockfd) (v : View) : Prop where
  eof : v.stdineof = eofSeen STDIN_FILENO v.log
  fin : if v.stdineof = true ∧ v.toBuf.optr = v.toBuf.iptr then Sent sock.fd v.log
    else .shutdown sock.fd ∉ v.log

theorem Finished.unsent {v : View} (h : Finished sock v)
    (hv : v.stdineof = false ∨ v.toBuf.optr ≠ v.toBuf.iptr) : .shutdown sock.fd ∉ v.log := by
  have hfin := h.fin
  rwa [if_neg] at hfin
  rintro ⟨heof, hmeet⟩
  cases hv with
  | inl hf => rw [heof] at hf; cases hf
  | inr hne => exact hne hmeet

/-- A call that writes nothing to the socket and sees no end of standard input. -/
theorem Finished.io {v : View} (h : Finished sock v) (frBuf : Buffer) {c : Call}
    (hc : c.bytesOut sock.fd = []) (he : eofSeen STDIN_FILENO [.io c] = false) :
    Finished sock { v with frBuf := frBuf, log := v.log ++ [.io c] } where
  eof := by simp [h.eof, he]
  fin := by
    have hfin := h.fin
    split at hfin
    · rename_i hcond
      simpa [hcond] using hfin.quiet hc
    · rename_i hcond
      simpa [hcond] using hfin

theorem Buffer.drain_meets {b : Buffer} {n : Nat} :
    (b.drain n).optr = (b.drain n).iptr ↔ b.optr + n = b.iptr := by
  unfold Buffer.drain
  split
  · simpa
  · rfl

/-- `Shutdown` is reached from two branches: at end of file with `to` drained, and when the last
pending byte is written after end of file. Before either the FIN was not sent. -/
theorem Finished.did {v v' : View} (h : Finished sock v) (hd : Did sock v v') :
    Finished sock v' := by
  have hin : STDIN_FILENO ≠ sock.fd := fun he => sock.not_stdin he.symm
  have hout : sock.fd ≠ STDOUT_FILENO := sock.not_stdout
  cases hd with
  | idle => exact h
  | recvFailed fd len e hlen => exact h.io _ rfl rfl
  | sendFailed fd data e => exact h.io _ rfl rfl
  | stdinEof len hlen heof =>
    have hno := h.unsent (.inl heof)
    by_cases hmeet : v.toBuf.optr = v.toBuf.iptr
    · refine ⟨by simp [eofSeen], ?_⟩
      simpa [hmeet] using sent_now hno _
    · refine ⟨by simp [eofSeen], ?_⟩
      simpa [hmeet] using hno
  | stdinRead len bs hlen hbs heof =>
    have hne : bs ≠ [] := List.ne_nil_of_length_pos hbs.1
    refine ⟨?_, ?_⟩
    · cases bs with
      | nil => exact absurd rfl hne
      | cons b bs => simpa [eofSeen] using h.eof
    · simpa [heof] using h.unsent (.inl heof)
  | socketEof len hlen => exact h.io _ rfl (by simp [eofSeen, hin.symm])
  | socketRead len bs hlen hbs =>
    refine h.io _ rfl ?_
    cases bs <;> simp [eofSeen, hin.symm]
  | stdoutWrote nwritten hn => exact h.io _ (by simp [Call.bytesOut, hout.symm]) rfl
  | socketWrote nwritten hn hp =>
    have hno := h.unsent (.inr (Nat.ne_of_lt hp))
    refine ⟨?_, ?_⟩
    · simp only [eofSeen_append, h.eof]
      split <;> simp [eofSeen]
    · by_cases hmeet : v.toBuf.optr + nwritten = v.toBuf.iptr ∧ v.stdineof = true
      · simpa [Buffer.drain_meets, hmeet] using sent_now hno _
      · have hcond : ¬(v.stdineof = true ∧ (v.toBuf.drain nwritten).optr =
            (v.toBuf.drain nwritten).iptr) := by
          rw [Buffer.drain_meets]
          exact fun hc => hmeet ⟨hc.2, hc.1⟩
        rw [if_neg hcond]
        simpa [hmeet] using hno

theorem start_finished (toMem frMem : Memory) : Finished sock (start toMem frMem).view where
  eof := rfl
  fin := by simp [start, State.view]

/-! ## Runs -/

/-- What was written to `dst`, followed by the slice between the pointers of `b`, is what was read
from `src`. -/
structure Direction (src dst : Int) (b : Buffer) (log : List Act) : Prop where
  bytes : accepted dst (calls log) ++ b.pending = received src (calls log)
  le : b.optr ≤ b.iptr
  fits : b.iptr ≤ MAXLINE

/-- Both directions are in order, and no read asked for no bytes. -/
structure InOrder (sock : Sockfd) (s : State) : Prop where
  up : Direction STDIN_FILENO sock.fd s.toBuf s.log
  down : Direction sock.fd STDOUT_FILENO s.frBuf s.log
  asks : ∀ c ∈ calls s.log, c.asksNothing = false

/-- The FIN is sent at most once, nothing is written after it, and it has been sent just when
standard input is at end of file and all its bytes are written to the socket. -/
structure OneFin (sock : Sockfd) (s : State) : Prop where
  once : s.log.count (.shutdown sock.fd) ≤ 1
  last : accepted sock.fd (calls (afterShutdown sock.fd s.log)) = []
  when : .shutdown sock.fd ∈ s.log ↔ eofSeen STDIN_FILENO s.log = true ∧
    accepted sock.fd (calls s.log) = received STDIN_FILENO (calls s.log)

theorem Held.direction {src dst : Int} {b : Buffer} {log : List Act} (h : Held src dst b log) :
    Direction src dst b log := by
  obtain ⟨R, hr, ha, hh⟩ := h
  exact ⟨by rw [← hr, ← ha, hh.received_eq, Buffer.pending], hh.le, hh.fits⟩

/-- Everything read is written just when the pointers meet. -/
theorem Held.empty_iff {src dst : Int} {b : Buffer} {log : List Act}
    (h : Held src dst b log) :
    accepted dst (calls log) = received src (calls log) ↔ b.optr = b.iptr := by
  obtain ⟨R, hr, ha, hh⟩ := h
  have hle := hh.le
  rw [← hr, ← ha, R.received_eq, List.self_eq_append_right, hh.pending_eq_nil_iff]
  omega

theorem oneFin (hr : Relayed sock s.view) (hf : Finished sock s.view) : OneFin sock s := by
  have hfin : if s.stdineof = true ∧ s.toBuf.optr = s.toBuf.iptr then Sent sock.fd s.log
      else .shutdown sock.fd ∉ s.log := hf.fin
  have hwhen : (eofSeen STDIN_FILENO s.log = true ∧
      accepted sock.fd (calls s.log) = received STDIN_FILENO (calls s.log)) ↔
      (s.stdineof = true ∧ s.toBuf.optr = s.toBuf.iptr) :=
    and_congr (iff_of_eq (congrArg (· = true) hf.eof.symm)) hr.up.empty_iff
  split at hfin
  · rename_i hcond
    exact ⟨Nat.le_of_eq hfin.1, hfin.2, by simpa [hwhen, hcond] using hfin.mem⟩
  · rename_i hcond
    have hcount : s.log.count (.shutdown sock.fd) = 0 := List.count_eq_zero_of_not_mem hfin
    refine ⟨by rw [hcount]; exact Nat.zero_le 1, ?_, ?_⟩
    · rw [afterShutdown_eq_nil_iff.mpr hfin, calls_nil, accepted_nil]
    · rw [hwhen]
      exact ⟨fun hmem => absurd hmem hfin, fun hc => absurd hc hcond⟩

/-- The invariant of the loop. -/
structure Inv (sock : Sockfd) (s : State) : Prop where
  masks : Masks sock s
  relayed : Relayed sock s.view
  finished : Finished sock s.view

theorem step_inv {e : Event} (h : Inv sock s) (hok : (machine sock).ok s e) :
    Inv sock ((machine sock).step s e) :=
  have hd := step_did h.masks hok
  ⟨step_masks h.masks hok, h.relayed.did hd, h.finished.did hd⟩

theorem start_inv (toMem frMem : Memory) : Inv sock (start toMem frMem) where
  masks := masks_of_noRead ⟨by simp [start], by simp [start]⟩
  relayed := start_relayed toMem frMem
  finished := start_finished toMem frMem

theorem runs_inv (toMem frMem : Memory) {es : List Event}
    (hv : (machine sock).Valid (start toMem frMem) es) :
    (machine sock).Always (Inv sock) (start toMem frMem) es :=
  Machine.always_inv (fun _ _ h hok => step_inv h hok) (start_inv toMem frMem) hv

def blank : Memory := ⟨List.replicate MAXLINE 0, List.length_replicate⟩

def sock3 : Sockfd := ⟨3, by decide, by decide⟩

/-- A line is read and one byte of it written, standard input ends, the rest is written. -/
def lateFin : List Event :=
  [.select (some ({0}, ∅)), .readStdin (.data [104, 105, 10]) true, .readSocket (.fail .again),
    .writeStdout (.fail .again), .writeSocket (.take 1) true,
    .select (some ({0}, {3})), .readStdin (.data []) true, .readSocket (.fail .again),
    .writeStdout (.fail .again), .writeSocket (.take 2) true]

theorem lateFin_valid : (machine sock3).Valid (start blank blank) lateFin := by
  decide +kernel

/-- Neither direction loses, reorders or invents bytes, in every state of every run. -/
theorem runs_in_order (sock : Sockfd) (toMem frMem : Memory) (es : List Event)
    (hv : (machine sock).Valid (start toMem frMem) es) :
    (machine sock).Always (InOrder sock) (start toMem frMem) es :=
  (runs_inv toMem frMem hv).imp fun _ h =>
    ⟨h.relayed.up.direction, h.relayed.down.direction, h.relayed.asks⟩

theorem runs_in_order_lateFin :
    (machine sock3).Always (InOrder sock3) (start blank blank) lateFin :=
  runs_in_order sock3 blank blank lateFin lateFin_valid

/-- The FIN is sent exactly when it is due, in every state of every run. -/
theorem runs_one_fin (sock : Sockfd) (toMem frMem : Memory) (es : List Event)
    (hv : (machine sock).Valid (start toMem frMem) es) :
    (machine sock).Always (OneFin sock) (start toMem frMem) es :=
  (runs_inv toMem frMem hv).imp fun _ h => oneFin h.relayed h.finished

theorem runs_one_fin_lateFin :
    (machine sock3).Always (OneFin sock3) (start blank blank) lateFin :=
  runs_one_fin sock3 blank blank lateFin lateFin_valid

example : ((machine sock3).run (start blank blank) lateFin).log.getLast? =
    some (.shutdown 3) := by decide +kernel

end

end StrCli
end Unpvol1
