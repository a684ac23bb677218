import Mathlib.Algebra.Group.Int.Defs
import Unpvol1.Chat.ServerPoll

/-!
# Chat.ClientPoll

The group chat client (`client_poll.c`): standard input in `pfd[0]`, the connection in `pfd[1]`,
one `sendbuff` between them. A step of the machine is `poll` or one turn of the `for` loop.

* `turn`     — the body of the loop, with its chain of branches on `revents`.
* `Kept`     — what was read is sent, or held in `sendbuff` with the socket registered for it.
* `Did`      — what a turn can do with the input and the buffer.
* `kept_iff` — the input is kept in a run just when every step is `Careful`.
-/

namespace Unpvol1
namespace ClientPoll

open ServerPoll (Events PollFd)

def BUFFER_SIZE : Nat := 1024

def STDIN_FILENO : Nat := 0

/-- A `size_t` from the `int` or `ssize_t` that a call returned. -/
def sizeT (n : Int) : Nat := (n % 2 ^ 64).toNat

/-- The connected socket. -/
structure Connfd where
  fd : Nat
  not_stdin : fd ≠ STDIN_FILENO

/-- The variables of `main` and, beside them, whether the connection is closed or the process gone,
the bytes read from standard input and those the socket took. `i` is 2 where `poll` is next. -/
structure State where
  pfd : Nat → PollFd
  sendbuff : List UInt8
  recvbuff : List UInt8
  recvpos : Nat
  sendpos : Nat
  i : Nat
  closed : Bool
  exited : Bool
  input : List UInt8
  sent : List UInt8

/-- What the kernel has in store for the calls of one turn. -/
structure Outcome where
  read : RecvOutcome
  recv : RecvOutcome
  send : SendOutcome
deriving DecidableEq

inductive Step where
  /-- `poll` with the `revents` of both entries, or its failure, which leaves them alone. -/
  | poll (result : Option (Events × Events))
  | turn (o : Outcome)
deriving DecidableEq

def setEvents (i : Nat) (f : Events → Events) (s : State) : State :=
  { s with pfd := Function.update s.pfd i { s.pfd i with events := f (s.pfd i).events } }

/-- The branch of standard input. -/
def readStdin (o : RecvOutcome) (s : State) : State :=
  let sendbuff := List.replicate BUFFER_SIZE 0
  let s := setEvents 1 (fun e => { e with pollin := false, pollout := true }) s
  match Unpvol1.recv (BUFFER_SIZE - 1) o with
  | .err _ => { s with sendbuff := sendbuff, sendpos := sizeT (-1) }
  | .got bs =>
    { s with
      sendbuff := overwrite sendbuff 0 bs
      sendpos := bs.length
      input := s.input ++ bs }

/-- The branch of messages from the server. -/
def recvSocket (o : RecvOutcome) (s : State) : State :=
  let recvbuff := List.replicate BUFFER_SIZE 0
  match Unpvol1.recv (BUFFER_SIZE - 1) o with
  | .err _ => { s with recvbuff := recvbuff, recvpos := sizeT (-1), closed := true }
  | .got bs => { s with recvbuff := overwrite recvbuff 0 bs, recvpos := bs.length }

/-- The branch of POLLOUT. -/
def sendSocket (i : Nat) (o : SendOutcome) (s : State) : State :=
  if s.sendpos = 0 then s
  else
    let text := cstr s.sendbuff 0
    let s := setEvents i (fun e => { e with pollout := false, pollin := true }) s
    match Unpvol1.send text.length o with
    | .err _ => { s with sendpos := sizeT (s.sendpos + 1) }
    | .took ret => { s with sendpos := sizeT (s.sendpos - ret), sent := s.sent ++ text.take ret }

/-- The body of the loop. -/
def turn (o : Outcome) (s : State) : State :=
  let i := s.i
  let p := s.pfd i
  let s := { s with i := i + 1 }
  if p.fd = STDIN_FILENO ∧ p.revents.pollin = true then readStdin o.read s
  else if p.revents.pollerr then s
  else if p.revents.pollrdhup then { s with closed := true, exited := true }
  else if p.revents.pollin then recvSocket o.recv s
  else if p.revents.pollout then sendSocket i o.send s
  else s

def polled (s : State) : Option (Events × Events) → State
  | none => { s with i := 0 }
  | some (r0, r1) =>
    { s with
      i := 0
      pfd := Function.update (Function.update s.pfd 0 { s.pfd 0 with revents := r0 }) 1
        { s.pfd 1 with revents := r1 } }

def step (s : State) : Step → State
  | .poll result => polled s result
  | .turn o => turn o s

/-- `poll` reports what is asked for, and errors. -/
def reports (events revents : Events) : Bool :=
  (revents.pollin → events.pollin) ∧ (revents.pollrdhup → events.pollrdhup) ∧
    (revents.pollout → events.pollout)

/-- A closed descriptor reports none of the four. -/
def enabled (s : State) : Step → Bool
  | .poll none => 2 ≤ s.i
  | .poll (some (r0, r1)) =>
    2 ≤ s.i ∧ reports (s.pfd 0).events r0 ∧ reports (s.pfd 1).events r1 ∧
      (s.closed → r1 = .zero)
  | .turn _ => s.i < 2

def machine : Machine State Step := ⟨step, fun s i => s.exited = false ∧ enabled s i = true⟩

instance (s : State) (i : Step) : Decidable (machine.ok s i) :=
  inferInstanceAs (Decidable (s.exited = false ∧ enabled s i = true))

/-- What the two buffers may contain on entry. -/
abbrev Memory := { mem : List UInt8 // mem.length = BUFFER_SIZE }

/-- `main` before its loop. -/
def start (connfd : Connfd) (sendbuff recvbuff : Memory) : State where
  pfd := Function.update
    (fun _ => ⟨connfd.fd, { Events.zero with pollin := true, pollrdhup := true, pollerr := true },
      .zero⟩) 0 ⟨STDIN_FILENO, { Events.zero with pollin := true }, .zero⟩
  sendbuff := sendbuff
  recvbuff := recvbuff
  recvpos := 0
  sendpos := 0
  i := 2
  closed := false
  exited := false
  input := []
  sent := []

/-- Read from standard input and not yet sent. -/
def State.unsent (s : State) : List UInt8 := s.input.drop s.sent.length

/-- What was sent is a prefix of what was read, and the rest is the first `sendpos` bytes of
`sendbuff`, for which the socket is registered; when there is no rest, it is registered for
POLLIN. -/
structure Kept (s : State) : Prop where
  inOrder : s.sent <+: s.input
  held : s.unsent = s.sendbuff.take s.sendpos
  fits : s.sendpos < BUFFER_SIZE
  pollout : s.unsent ≠ [] → (s.pfd 1).events.pollout = true
  pollin : s.unsent = [] → (s.pfd 1).events.pollin = true

/-- The next turn reads standard input. -/
def State.reads (s : State) : Bool :=
  (s.pfd s.i).fd = STDIN_FILENO ∧ (s.pfd s.i).revents.pollin = true

/-- The next turn gets to the branch of POLLOUT. -/
def State.sends (s : State) : Bool :=
  s.reads = false ∧ (s.pfd s.i).revents.pollerr = false ∧ (s.pfd s.i).revents.pollrdhup = false ∧
    (s.pfd s.i).revents.pollin = false ∧ (s.pfd s.i).revents.pollout = true

/-- Standard input is read only when nothing is pending, and has something; a `send` takes all that
is pending. -/
def Careful (s : State) : Step → Prop
  | .poll _ => True
  | .turn o =>
    (s.reads = true → s.sendpos = 0 ∧
      ∃ b bs, Unpvol1.recv (BUFFER_SIZE - 1) o.read = .got (b :: bs)) ∧
    (s.sends = true → s.sendpos ≠ 0 →
      Unpvol1.send (cstr s.sendbuff 0).length o.send = .took s.sendpos)

/-! ## The branches -/

section
variable {s s' : State}

/-- `Kept` reads no more of the state than this. -/
theorem kept_congr (hev : (s'.pfd 1).events = (s.pfd 1).events) (hbuf : s'.sendbuff = s.sendbuff)
    (hpos : s'.sendpos = s.sendpos) (hin : s'.input = s.input) (hsent : s'.sent = s.sent) :
    Kept s' ↔ Kept s := by
  have hunsent : s'.unsent = s.unsent := by rw [State.unsent, State.unsent, hin, hsent]
  constructor
  · intro h
    exact ⟨hin ▸ hsent ▸ h.inOrder, by rw [← hunsent, ← hbuf, ← hpos]; exact h.held,
      hpos ▸ h.fits, by rw [← hunsent, ← hev]; exact h.pollout,
      by rw [← hunsent, ← hev]; exact h.pollin⟩
  · intro h
    exact ⟨hin ▸ hsent ▸ h.inOrder, by rw [hunsent, hbuf, hpos]; exact h.held,
      hpos ▸ h.fits, by rw [hunsent, hev]; exact h.pollout,
      by rw [hunsent, hev]; exact h.pollin⟩

theorem recvSocket_kept_iff (o : RecvOutcome) (s : State) : Kept (recvSocket o s) ↔ Kept s := by
  unfold recvSocket
  cases Unpvol1.recv (BUFFER_SIZE - 1) o with
  | err e => exact kept_congr rfl rfl rfl rfl rfl
  | got bs => exact kept_congr rfl rfl rfl rfl rfl

/-- Nothing is pending just when `sendpos` is 0. -/
theorem Kept.unsent_eq_nil_iff (h : Kept s) (hlen : s.sendbuff.length = BUFFER_SIZE) :
    s.unsent = [] ↔ s.sendpos = 0 := by
  rw [h.held, List.take_eq_nil_iff]
  constructor
  · rintro (h0 | hnil)
    · exact h0
    · rw [hnil] at hlen
      cases hlen
  · exact .inl

theorem unsent_append (h : s.sent <+: s.input) (bs : List UInt8) :
    (s.input ++ bs).drop s.sent.length = s.unsent ++ bs :=
  List.drop_append_of_le_length h.length_le

theorem take_overwrite_zeros (bs : List UInt8) :
    (overwrite (List.replicate BUFFER_SIZE 0) 0 bs).take bs.length = bs := by
  simp [overwrite]

/-- Reading keeps the input just when nothing was pending and there was something to read: at end
of file, or after an error, the socket is left without POLLIN and with nothing to send. -/
theorem readStdin_kept_iff (h : Kept s) (hlen : s.sendbuff.length = BUFFER_SIZE)
    (o : RecvOutcome) : Kept (readStdin o s) ↔ s.sendpos = 0 ∧
      ∃ b bs, Unpvol1.recv (BUFFER_SIZE - 1) o = .got (b :: bs) := by
  unfold readStdin
  cases hr : Unpvol1.recv (BUFFER_SIZE - 1) o with
  | err e =>
    refine iff_of_false (fun hk => ?_) (by simp)
    have hbig : ¬sizeT (-1) < BUFFER_SIZE := by decide
    exact hbig hk.fits
  | got bs =>
    have hbs : bs.length ≤ BUFFER_SIZE - 1 := recv_length hr
    have hunsent := unsent_append h.inOrder bs
    constructor
    · intro hk
      have hheld : (s.input ++ bs).drop s.sent.length =
          (overwrite (List.replicate BUFFER_SIZE 0) 0 bs).take bs.length := hk.held
      rw [hunsent, take_overwrite_zeros] at hheld
      have hnil : s.unsent = [] := List.append_left_eq_self.mp hheld
      refine ⟨(h.unsent_eq_nil_iff hlen).mp hnil, ?_⟩
      cases bs with
      | nil =>
        have hpollin := hk.pollin (hunsent.trans (by rw [hnil, List.nil_append]))
        simp [setEvents] at hpollin
      | cons b bs => exact ⟨b, bs, rfl⟩
    · rintro ⟨hpos, b, bs, hgot⟩
      cases hgot
      have hnil := (h.unsent_eq_nil_iff hlen).mpr hpos
      rw [hnil, List.nil_append] at hunsent
      refine ⟨h.inOrder.trans (List.prefix_append _ _), ?_, ?_, ?_, ?_⟩
      · exact hunsent.trans (take_overwrite_zeros _).symm
      · exact Nat.lt_of_le_of_lt hbs (by decide)
      · intro _
        simp [setEvents]
      · intro hempty
        exact absurd (hunsent.symm.trans hempty) (by simp)

theorem sizeT_eq_zero_iff {n : Int} (hlo : -2 ^ 63 < n) (hhi : n < 2 ^ 63) :
    sizeT n = 0 ↔ n = 0 := by
  unfold sizeT
  omega

theorem cstr_eq_take (mem : List UInt8) : cstr mem 0 = mem.take (cstr mem 0).length := by
  have hpre : cstr mem 0 <+: mem := List.takeWhile_prefix _
  exact List.prefix_iff_eq_take.mp hpre

/-- Sending keeps the input just when everything pending is taken: after a shorter `send` the
socket is no longer registered for POLLOUT. -/
theorem sendSocket_kept_iff (h : Kept s) (hlen : s.sendbuff.length = BUFFER_SIZE) {i : Nat}
    (hi : i = 1) (o : SendOutcome) : Kept (sendSocket i o s) ↔ (s.sendpos ≠ 0 →
      Unpvol1.send (cstr s.sendbuff 0).length o = .took s.sendpos) := by
  subst hi
  unfold sendSocket
  by_cases hpos : s.sendpos = 0
  · rw [if_pos hpos]
    exact iff_of_true h fun hne => absurd hpos hne
  · rw [if_neg hpos]
    simp only
    have hunsent : s.unsent ≠ [] := fun hnil => hpos ((h.unsent_eq_nil_iff hlen).mp hnil)
    cases hr : Unpvol1.send (cstr s.sendbuff 0).length o with
    | err e =>
      refine iff_of_false (fun hk => ?_) (by simp [hpos])
      have hpollout := hk.pollout hunsent
      simp [setEvents] at hpollout
    | took ret =>
      have htext : (cstr s.sendbuff 0).length ≤ BUFFER_SIZE :=
        hlen ▸ (List.takeWhile_prefix _).length_le
      have hret : ret ≤ (cstr s.sendbuff 0).length := send_le hr
      have hfits := h.fits
      have hcap : BUFFER_SIZE = 1024 := rfl
      have hzero : sizeT (s.sendpos - ret) = 0 ↔ ret = s.sendpos := by
        rw [sizeT_eq_zero_iff (by omega) (by omega)]
        omega
      constructor
      · intro hk _
        have hnil := not_imp_comm.mp hk.pollout (by simp [setEvents])
        have hheld := hk.held
        rw [hnil, eq_comm, List.take_eq_nil_iff] at hheld
        rcases hheld with h0 | hbuf
        · rw [hzero.mp h0]
        · simp only [setEvents] at hbuf
          rw [hbuf] at hlen
          cases hlen
      · intro hall
        cases hall hpos
        have htake : (cstr s.sendbuff 0).take s.sendpos = s.unsent := by
          rw [h.held, cstr_eq_take s.sendbuff, List.take_take, Nat.min_eq_left hret]
        have hsent : s.sent ++ s.unsent = s.input := by
          obtain ⟨t, ht⟩ := h.inOrder
          simp [State.unsent, ← ht]
        have hpos0 : sizeT (s.sendpos - s.sendpos) = 0 := hzero.mpr rfl
        have hfull : s.sent ++ (cstr s.sendbuff 0).take s.sendpos = s.input := by
          rw [htake, hsent]
        have hnil : s.input.drop (s.sent ++ (cstr s.sendbuff 0).take s.sendpos).length = [] := by
          rw [hfull, List.drop_length]
        refine ⟨?_, ?_, ?_, fun hne => absurd hnil hne, fun _ => by simp [setEvents]⟩
        · show s.sent ++ (cstr s.sendbuff 0).take s.sendpos <+: s.input
          exact ⟨[], by rw [hfull, List.append_nil]⟩
        · show _ = s.sendbuff.take (sizeT (s.sendpos - s.sendpos))
          rw [hpos0, List.take_zero]
          exact hnil
        · show sizeT (s.sendpos - s.sendpos) < BUFFER_SIZE
          rw [hpos0]
          decide

/-! ## The loop -/

/-- What no branch changes. -/
structure Shape (s : State) : Prop where
  stdin : (s.pfd 0).fd = STDIN_FILENO
  socket : (s.pfd 1).fd ≠ STDIN_FILENO
  events : (s.pfd 0).events.pollout = false
  revents : (s.pfd 0).revents.pollout = false
  length : s.sendbuff.length = BUFFER_SIZE

theorem length_overwrite_zeros {bs : List UInt8} (h : bs.length ≤ BUFFER_SIZE - 1) :
    (overwrite (List.replicate BUFFER_SIZE 0) 0 bs).length = BUFFER_SIZE := by
  have hzeros : (List.replicate BUFFER_SIZE (0 : UInt8)).length = BUFFER_SIZE :=
    List.length_replicate
  rw [overwrite_length_within, hzeros]
  rw [hzeros]
  omega

/-- `Shape` survives a change of the second entry's events. -/
theorem Shape.setEvents (h : Shape s) (f : Events → Events) : Shape (setEvents 1 f s) where
  stdin := by simpa [ClientPoll.setEvents] using h.stdin
  socket := by simpa [ClientPoll.setEvents] using h.socket
  events := by simpa [ClientPoll.setEvents] using h.events
  revents := by simpa [ClientPoll.setEvents] using h.revents
  length := h.length

theorem Shape.readStdin (h : Shape s) (o : RecvOutcome) : Shape (readStdin o s) := by
  have hset := h.setEvents fun e => { e with pollin := false, pollout := true }
  unfold ClientPoll.readStdin
  cases hr : Unpvol1.recv (BUFFER_SIZE - 1) o with
  | err e => exact { hset with length := List.length_replicate }
  | got bs => exact { hset with length := length_overwrite_zeros (recv_length hr) }

theorem Shape.recvSocket (h : Shape s) (o : RecvOutcome) : Shape (recvSocket o s) := by
  unfold ClientPoll.recvSocket
  cases Unpvol1.recv (BUFFER_SIZE - 1) o with
  | err e => exact { h with }
  | got bs => exact { h with }

theorem Shape.sendSocket (h : Shape s) {i : Nat} (hi : i = 1) (o : SendOutcome) :
    Shape (sendSocket i o s) := by
  subst hi
  have hset := h.setEvents fun e => { e with pollout := false, pollin := true }
  unfold ClientPoll.sendSocket
  simp only
  split
  · exact h
  · split
    · exact { hset with }
    · exact { hset with }

/-- The branches a turn can end in. -/
inductive Branch (o : Outcome) (s : State) : State → Prop where
  | stdin (h : s.reads = true) : Branch o s (readStdin o.read { s with i := s.i + 1 })
  | socket (h : s.reads = false) (hs : s.sends = false) :
      Branch o s (recvSocket o.recv { s with i := s.i + 1 })
  | send (h : s.reads = false) (hs : s.sends = true) (hi : s.i = 1) :
      Branch o s (sendSocket s.i o.send { s with i := s.i + 1 })
  | closed (h : s.reads = false) (hs : s.sends = false) :
      Branch o s { s with i := s.i + 1, closed := true, exited := true }
  | idle (h : s.reads = false) (hs : s.sends = false) : Branch o s { s with i := s.i + 1 }

theorem turn_branch (h : Shape s) (hi : s.i < 2) (o : Outcome) : Branch o s (turn o s) := by
  unfold turn
  simp only
  split
  · rename_i hr
    exact .stdin (decide_eq_true hr)
  · rename_i hr
    have hreads : s.reads = false := decide_eq_false hr
    split
    · rename_i herr
      exact .idle hreads (by simp [State.sends, herr])
    · rename_i herr
      split
      · rename_i hhup
        exact .closed hreads (by simp [State.sends, hhup])
      · rename_i hhup
        split
        · rename_i hin
          exact .socket hreads (by simp [State.sends, hin])
        · rename_i hin
          split
          · rename_i hout
            have hone : s.i = 1 := by
              by_contra hne
              have hzero : s.i = 0 := by omega
              rw [hzero, h.revents] at hout
              cases hout
            exact .send hreads (by simp [State.sends, hreads, herr, hhup, hin, hout]) hone
          · rename_i hout
            exact .idle hreads (by simp [State.sends, hout])

theorem Shape.turn (h : Shape s) (hi : s.i < 2) (o : Outcome) : Shape (turn o s) := by
  have hnext : Shape { s with i := s.i + 1 } := { h with }
  have hbranch := turn_branch h hi o
  generalize ClientPoll.turn o s = s' at hbranch ⊢
  cases hbranch with
  | stdin hr => exact hnext.readStdin o.read
  | socket hr hs => exact hnext.recvSocket o.recv
  | send hr hs hone => exact hnext.sendSocket hone o.send
  | closed hr hs => exact { h with }
  | idle hr hs => exact hnext

/-- A turn keeps the input just when it is careful. -/
theorem turn_kept_iff (h : Shape s) (hi : s.i < 2) (hk : Kept s) (o : Outcome) :
    Kept (turn o s) ↔ Careful s (.turn o) := by
  have hsame : Kept { s with i := s.i + 1 } ↔ Kept s := kept_congr rfl rfl rfl rfl rfl
  have hnext := hsame.mpr hk
  have hlen := h.length
  unfold Careful
  have hbranch := turn_branch h hi o
  generalize ClientPoll.turn o s = s' at hbranch ⊢
  cases hbranch with
  | stdin hr =>
    have hs : s.sends = false := by simp [State.sends, hr]
    rw [readStdin_kept_iff hnext hlen, hr, hs]
    simp
  | socket hr hs =>
    rw [recvSocket_kept_iff, hr, hs]
    simpa using hnext
  | send hr hs hone =>
    rw [sendSocket_kept_iff hnext hlen hone, hr, hs]
    simp
  | closed hr hs =>
    have hclosed : Kept { s with i := s.i + 1, closed := true, exited := true } ↔ Kept s :=
      kept_congr rfl rfl rfl rfl rfl
    rw [hclosed, hr, hs]
    simpa using hk
  | idle hr hs =>
    rw [hr, hs]
    simpa using hnext

theorem shape_poll (h : Shape s) (result : Option (Events × Events))
    (hen : enabled s (.poll result) = true) : Shape (polled s result) := by
  cases result with
  | none => exact { h with }
  | some r =>
    obtain ⟨r0, r1⟩ := r
    have hrep : reports (s.pfd 0).events r0 = true := by
      simp only [enabled, decide_eq_true_eq] at hen
      exact hen.2.1
    have hout : r0.pollout = false := by
      simp only [reports, decide_eq_true_eq, h.events] at hrep
      simpa using hrep.2.2
    exact ⟨by simpa [polled] using h.stdin, by simpa [polled] using h.socket,
      by simpa [polled] using h.events, by simpa [polled] using hout, h.length⟩

theorem poll_kept_iff (result : Option (Events × Events)) : Kept (polled s result) ↔ Kept s := by
  cases result with
  | none => exact kept_congr rfl rfl rfl rfl rfl
  | some r => exact kept_congr (by simp [polled]) rfl rfl rfl rfl

theorem shape_step {i : Step} (h : Shape s) (hok : machine.ok s i) :
    Shape (machine.step s i) := by
  obtain ⟨_, hen⟩ := hok
  cases i with
  | poll result => exact shape_poll h result hen
  | turn o => exact h.turn (by simpa [enabled] using hen) o

theorem kept_step_iff {i : Step} (h : Shape s) (hok : machine.ok s i) (hk : Kept s) :
    Kept (machine.step s i) ↔ Careful s i := by
  obtain ⟨_, hen⟩ := hok
  cases i with
  | poll result => exact iff_of_true ((poll_kept_iff result).mpr hk) trivial
  | turn o => exact turn_kept_iff h (by simpa [enabled] using hen) hk o

end

/-! ## Runs -/

section
variable (connfd : Connfd) (sendbuff recvbuff : Memory)

theorem start_shape : Shape (start connfd sendbuff recvbuff) where
  stdin := rfl
  socket := connfd.not_stdin
  events := rfl
  revents := rfl
  length := sendbuff.2

theorem start_kept : Kept (start connfd sendbuff recvbuff) where
  inOrder := List.prefix_refl _
  held := rfl
  fits := Nat.zero_lt_succ _
  pollout := fun hne => absurd rfl hne
  pollin := fun _ => rfl

/-- The input is kept in every state of a run just when every step is careful. -/
theorem kept_iff (steps : List Step)
    (hv : machine.Valid (start connfd sendbuff recvbuff) steps) :
    machine.Always Kept (start connfd sendbuff recvbuff) steps ↔
      machine.Each Careful (start connfd sendbuff recvbuff) steps :=
  Machine.always_iff_each (fun _ _ h hok => shape_step h hok)
    (fun _ _ h hok hk => kept_step_iff h hok hk) (start_shape connfd sendbuff recvbuff)
    (start_kept connfd sendbuff recvbuff) hv

end

def connfd3 : Connfd := ⟨3, by decide⟩

def blank : Memory := ⟨List.replicate BUFFER_SIZE 0, List.length_replicate⟩

def idle : Outcome := ⟨.fail .again, .fail .again, .fail .again⟩

/-- Two bytes are read from standard input, and a `send` takes `n` of them. -/
def hello (n : Nat) : List Step :=
  [.poll (some ({ Events.zero with pollin := true }, .zero)),
    .turn { idle with read := .data [104, 105] }, .turn idle,
    .poll (some (.zero, { Events.zero with pollout := true })),
    .turn idle, .turn { idle with send := .take n }]

theorem kept_iff_hello :
    machine.Always Kept (start connfd3 blank blank) (hello 2) ↔
      machine.Each Careful (start connfd3 blank blank) (hello 2) :=
  kept_iff connfd3 blank blank (hello 2) (by decide +kernel)

theorem not_kept :
    machine.Valid (start connfd3 blank blank) (hello 1) ∧
      ¬machine.Always Kept (start connfd3 blank blank) (hello 1) := by
  refine ⟨by decide +kernel, fun h => ?_⟩
  have hunsent : (machine.run (start connfd3 blank blank) (hello 1)).unsent = [105] := by
    decide +kernel
  have hevents : ((machine.run (start connfd3 blank blank) (hello 1)).pfd 1).events.pollout =
      false := by decide +kernel
  have hpollout := h.last.pollout (by rw [hunsent]; simp)
  rw [hevents] at hpollout
  cases hpollout

end ClientPoll
end Unpvol1
