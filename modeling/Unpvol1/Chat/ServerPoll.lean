import Unpvol1.Lib.CString
import Unpvol1.Lib.Machine
import Unpvol1.Lib.Slots
import Unpvol1.Lib.Socket

/-!
# Chat.ServerPoll

The group chat server built on `poll` (`server_poll.c`): the array `pfd`, with the listening socket
in slot 0, the `clients` by descriptor, and one turn of the scan for each slot.

* `iterate`      — the body of the `for` loop.
* `Turn`         — what a turn can do with a client; `iterate_client` shows there is no more.
* `iterate_listen` — what a turn of slot 0 can do.
* `Forwarded`    — what the inner loop has done after `n` clients, by induction on `n`.
-/

namespace Unpvol1
namespace ServerPoll

open Slots

def bufferSize : Nat := 1024

/-- The bits of `events` and `revents` the server sets or tests. -/
structure Events where
  pollin : Bool
  pollrdhup : Bool
  pollerr : Bool
  pollout : Bool
deriving DecidableEq

def Events.zero : Events := ⟨false, false, false, false⟩

structure PollFd where
  fd : Nat
  events : Events
  revents : Events
deriving DecidableEq

/-- `wb` points into the `rb` of the client it names. -/
structure ClientInfo where
  wb : Option Nat
  rb : List UInt8
deriving DecidableEq

structure Server where
  listenfd : Nat
  maxClientNum : Nat
  currentClientNum : Nat
  pfd : Nat → PollFd
  clients : Nat → ClientInfo

/-- What the kernel has in store for a turn: a connection, and what a `recv` brings. -/
structure Outcome where
  accept : Option Nat
  recv : RecvOutcome

/-- A system call that succeeded, as it is seen from outside. -/
inductive Act where
  | accept (fd : Nat)
  | close (fd : Nat)
  | recv (fd : Nat) (bytes : List UInt8)
  | send (fd : Nat) (bytes : List UInt8)
deriving DecidableEq

/-- `main` before its loop. -/
def init (listenfd maxClientNum : Nat) : Server where
  listenfd := listenfd
  maxClientNum := maxClientNum
  currentClientNum := 0
  pfd := Function.update (fun _ => ⟨0, .zero, .zero⟩) 0
    ⟨listenfd, { Events.zero with pollin := true }, .zero⟩
  clients := fun _ => ⟨none, List.replicate bufferSize 0⟩

def addClient (s : Server) (connfd : Nat) : Server :=
  { s with
    currentClientNum := s.currentClientNum + 1
    pfd := Function.update s.pfd (s.currentClientNum + 1)
      ⟨connfd, { Events.zero with pollin := true, pollrdhup := true }, .zero⟩ }

/-- Both removal branches: the last client takes over the slot, and its `client_info` is copied to
the one of the client that left. -/
def removeClient (s : Server) (i : Nat) : Server :=
  { s with
    clients := Function.update s.clients (s.pfd i).fd (s.clients (s.pfd s.currentClientNum).fd)
    pfd := Function.update s.pfd i (s.pfd s.currentClientNum)
    currentClientNum := s.currentClientNum - 1 }

/-- One pass of the inner loop over the clients. -/
def forwardTo (connfd : Nat) (s : Server) (j : Nat) : Server :=
  let p := s.pfd j
  if p.fd = connfd then
    s
  else
    { s with
      pfd := Function.update s.pfd j
        { p with events := { p.events with pollin := false, pollout := true } }
      clients := Function.update s.clients p.fd { s.clients p.fd with wb := some connfd } }

/-- `recv` put `bytes` into the buffer of `connfd`; terminate them and point the others to them. -/
def receive (s : Server) (connfd : Nat) (bytes : List UInt8) : Server :=
  let info := s.clients connfd
  let s := { s with
    clients := Function.update s.clients connfd
      { info with rb := overwrite info.rb 0 (bytes ++ [0]) } }
  (List.range s.currentClientNum).foldl (fun s k => forwardTo connfd s (k + 1)) s

def flush (s : Server) (i : Nat) : Server :=
  let p := s.pfd i
  { s with
    clients := Function.update s.clients p.fd { s.clients p.fd with wb := none }
    pfd := Function.update s.pfd i
      { p with events := { p.events with pollout := false, pollin := true } } }

/-- The body of the loop at `i`, the next value of `i`, and the calls it made. -/
def iterate (s : Server) (i : Nat) (o : Outcome) : Server × Nat × List Act :=
  let p := s.pfd i
  if p.fd = s.listenfd ∧ p.revents.pollin = true then
    match o.accept with
    | none => (s, i + 1, [])
    | some connfd =>
      if s.currentClientNum ≥ s.maxClientNum then
        (s, i + 1, [.accept connfd, .close connfd])
      else
        (addClient s connfd, i + 1, [.accept connfd])
  else if p.revents.pollerr then
    (s, i + 1, [])
  else if p.revents.pollrdhup then
    (removeClient s i, i, [.close p.fd])
  else if p.revents.pollin then
    match Unpvol1.recv (bufferSize - 1) o.recv with
    | .err e => if e ≠ .again then (removeClient s i, i, [.close p.fd]) else (s, i + 1, [])
    | .got [] => (s, i + 1, [])
    | .got bytes => (receive s p.fd bytes, i + 1, [.recv p.fd bytes])
  else if p.revents.pollout then
    match (s.clients p.fd).wb with
    | none => (s, i + 1, [])
    | some q => (flush s i, i + 1, [.send p.fd (cstr (s.clients q).rb 0)])
  else
    (s, i + 1, [])

/-! ## What a turn can do -/

/-- The client at slot `i` is found to have left. -/
def Leaves (s : Server) (i : Nat) (o : Outcome) : Prop :=
  (s.pfd i).revents.pollerr = false ∧
    ((s.pfd i).revents.pollrdhup = true ∨ (s.pfd i).revents.pollin = true ∧
      ∃ e, Unpvol1.recv (bufferSize - 1) o.recv = .err e ∧ e ≠ .again)

/-- The client at slot `i` has `bytes` for the others. -/
def Brings (s : Server) (i : Nat) (o : Outcome) (bytes : List UInt8) : Prop :=
  (s.pfd i).revents.pollerr = false ∧ (s.pfd i).revents.pollrdhup = false ∧
    (s.pfd i).revents.pollin = true ∧ Unpvol1.recv (bufferSize - 1) o.recv = .got bytes ∧ bytes ≠ []

/-- The client at slot `i` is found writable, and nothing else. -/
def Writable (s : Server) (i : Nat) : Prop :=
  (s.pfd i).revents.pollerr = false ∧ (s.pfd i).revents.pollrdhup = false ∧
    (s.pfd i).revents.pollin = false ∧ (s.pfd i).revents.pollout = true

/-- What a turn does with the client at slot `i`. -/
inductive Turn (s : Server) (i : Nat) (o : Outcome) : Server × Nat × List Act → Prop where
  | idle (hl : ¬ Leaves s i o) (hb : ∀ bytes, ¬ Brings s i o bytes)
      (hw : Writable s i → (s.clients (s.pfd i).fd).wb = none) : Turn s i o (s, i + 1, [])
  | left (hl : Leaves s i o) (hb : ∀ bytes, ¬ Brings s i o bytes) (hw : ¬ Writable s i) :
      Turn s i o (removeClient s i, i, [.close (s.pfd i).fd])
  | received {bytes : List UInt8} (hl : ¬ Leaves s i o)
      (hb : ∀ bytes', Brings s i o bytes' ↔ bytes' = bytes) (hw : ¬ Writable s i) :
      Turn s i o (receive s (s.pfd i).fd bytes, i + 1, [.recv (s.pfd i).fd bytes])
  | flushed {q : Nat} (hl : ¬ Leaves s i o) (hb : ∀ bytes, ¬ Brings s i o bytes)
      (hw : Writable s i) (hq : (s.clients (s.pfd i).fd).wb = some q) :
      Turn s i o (flush s i, i + 1, [.send (s.pfd i).fd (cstr (s.clients q).rb 0)])

theorem iterate_client {s : Server} {i : Nat} (hfd : (s.pfd i).fd ≠ s.listenfd) (o : Outcome) :
    Turn s i o (iterate s i o) := by
  unfold iterate
  cases herr : (s.pfd i).revents.pollerr with
  | true =>
    simp only [hfd, herr, false_and, if_false, if_true]
    refine .idle ?_ ?_ ?_ <;> simp [Leaves, Brings, Writable, herr]
  | false =>
    cases hrdhup : (s.pfd i).revents.pollrdhup with
    | true =>
      simp only [hfd, herr, hrdhup, false_and, if_false, if_true, Bool.false_eq_true]
      refine .left ?_ ?_ ?_ <;> simp [Leaves, Brings, Writable, herr, hrdhup]
    | false =>
      cases hin : (s.pfd i).revents.pollin with
      | true =>
        simp only [hfd, herr, hrdhup, hin, false_and, if_false, if_true, Bool.false_eq_true]
        cases hr : Unpvol1.recv (bufferSize - 1) o.recv with
        | err e =>
          by_cases he : e = .again
          · subst he
            refine .idle ?_ ?_ ?_ <;> simp [Leaves, Brings, Writable, hrdhup, hin, hr]
          · simp only [ne_eq, he, not_false_eq_true, if_true]
            refine .left ?_ ?_ ?_ <;> simp [Leaves, Brings, Writable, herr, hin, hr, he]
        | got bytes =>
          cases bytes with
          | nil => refine .idle ?_ ?_ ?_ <;> simp [Leaves, Brings, Writable, hrdhup, hin, hr]
          | cons b bytes =>
            refine .received ?_ ?_ ?_
            · simp [Leaves, hrdhup, hr]
            · intro bytes'
              simp only [Brings, herr, hrdhup, hin, hr, true_and, RecvResult.got.injEq]
              constructor
              · rintro ⟨rfl, -⟩
                rfl
              · rintro rfl
                simp
            · simp [Writable, hin]
      | false =>
        cases hout : (s.pfd i).revents.pollout with
        | true =>
          simp only [hfd, herr, hrdhup, hin, hout, false_and, if_false, if_true,
            Bool.false_eq_true]
          cases hq : (s.clients (s.pfd i).fd).wb with
          | none => refine .idle ?_ ?_ ?_ <;> simp [Leaves, Brings, hrdhup, hin, hq]
          | some q =>
            refine .flushed ?_ ?_ ?_ hq <;>
              simp [Leaves, Brings, Writable, herr, hrdhup, hin, hout]
        | false =>
          simp only [hfd, herr, hrdhup, hin, hout, false_and, if_false, Bool.false_eq_true]
          refine .idle ?_ ?_ ?_ <;> simp [Leaves, Brings, Writable, hrdhup, hin, hout]

/-- What a turn does in slot 0. -/
inductive ListenTurn (s : Server) (i : Nat) (o : Outcome) : Server × Nat × List Act → Prop where
  | idle : ListenTurn s i o (s, i + 1, [])
  | refused (connfd : Nat) (ha : o.accept = some connfd) :
      ListenTurn s i o (s, i + 1, [.accept connfd, .close connfd])
  | joined (connfd : Nat) (ha : o.accept = some connfd)
      (h : s.currentClientNum < s.maxClientNum) :
      ListenTurn s i o (addClient s connfd, i + 1, [.accept connfd])

theorem iterate_listen {s : Server} {i : Nat} (hfd : (s.pfd i).fd = s.listenfd)
    (hrdhup : (s.pfd i).revents.pollrdhup = false) (hout : (s.pfd i).revents.pollout = false)
    (o : Outcome) : ListenTurn s i o (iterate s i o) := by
  unfold iterate
  cases hin : (s.pfd i).revents.pollin with
  | true =>
    simp only [hfd, hin, true_and, if_true]
    cases ha : o.accept with
    | none => exact .idle
    | some connfd =>
      by_cases hfull : s.currentClientNum ≥ s.maxClientNum
      · simp only [hfull, if_true]
        exact .refused connfd ha
      · simp only [hfull, if_false]
        exact .joined connfd ha (Nat.lt_of_not_ge hfull)
  | false =>
    simp only [hin, hrdhup, hout, Bool.false_eq_true, and_false, if_false, ite_self]
    exact .idle

/-! ## Forwarding -/

/-- How a slot looks once there is a message for its client. -/
def asked (p : PollFd) : PollFd :=
  { p with events := { p.events with pollin := false, pollout := true } }

/-- `s'` is `s` once the first `n` clients have been pointed to the message of `connfd`. -/
structure Forwarded (connfd n : Nat) (s s' : Server) : Prop where
  listenfd : s'.listenfd = s.listenfd
  maxClientNum : s'.maxClientNum = s.maxClientNum
  currentClientNum : s'.currentClientNum = s.currentClientNum
  others : ∀ k < n, (s.pfd (k + 1)).fd ≠ connfd → s'.pfd (k + 1) = asked (s.pfd (k + 1)) ∧
    (s'.clients (s.pfd (k + 1)).fd).wb = some connfd
  rest : ∀ j, (∀ k < n, j = k + 1 → (s.pfd j).fd = connfd) → s'.pfd j = s.pfd j
  sender : (s'.clients connfd).wb = (s.clients connfd).wb
  rb : ∀ f, (s'.clients f).rb = (s.clients f).rb

theorem forwarded_loop (connfd : Nat) (s : Server) (n : Nat) :
    Forwarded connfd n s ((List.range n).foldl (fun s k => forwardTo connfd s (k + 1)) s) := by
  induction n with
  | zero => constructor <;> simp
  | succ n ih =>
    rw [List.range_succ, List.foldl_append, List.foldl_cons, List.foldl_nil]
    generalize (List.range n).foldl (fun s k => forwardTo connfd s (k + 1)) s = t at ih
    have hslot : t.pfd (n + 1) = s.pfd (n + 1) := ih.rest _ fun k hk e => by omega
    by_cases hfd : (s.pfd (n + 1)).fd = connfd
    · -- the sender's own slot is passed over
      have hsame : forwardTo connfd t (n + 1) = t := by simp [forwardTo, hslot, hfd]
      rw [hsame]
      refine ⟨ih.listenfd, ih.maxClientNum, ih.currentClientNum, ?_, ?_, ih.sender, ih.rb⟩
      · intro k hk hne
        have hkn : k < n := by
          rcases Nat.lt_succ_iff_lt_or_eq.mp hk with h | rfl
          · exact h
          · exact absurd hfd hne
        exact ih.others k hkn hne
      · intro j hj
        exact ih.rest j fun k hk => hj k (by omega)
    · have hstep : forwardTo connfd t (n + 1) = { t with
          pfd := Function.update t.pfd (n + 1) (asked (s.pfd (n + 1)))
          clients := Function.update t.clients (s.pfd (n + 1)).fd
            { t.clients (s.pfd (n + 1)).fd with wb := some connfd } } := by
        simp [forwardTo, hslot, hfd, asked]
      rw [hstep]
      refine ⟨ih.listenfd, ih.maxClientNum, ih.currentClientNum, ?_, ?_, ?_, ?_⟩
      · intro k hk hne
        rcases Nat.lt_succ_iff_lt_or_eq.mp hk with hkn | rfl
        · obtain ⟨hp, hw⟩ := ih.others k hkn hne
          have hkn' : k + 1 ≠ n + 1 := by omega
          refine ⟨by simp only [Function.update_of_ne hkn', hp], ?_⟩
          by_cases hf : (s.pfd (k + 1)).fd = (s.pfd (n + 1)).fd
          · simp [hf]
          · simp only [Function.update_of_ne hf, hw]
        · simp
      · intro j hj
        have hjn : j ≠ n + 1 := by
          rintro rfl
          exact hfd (hj n (Nat.lt_succ_self n) rfl)
        simp only [Function.update_of_ne hjn]
        exact ih.rest j fun k hk => hj k (by omega)
      · have hne : connfd ≠ (s.pfd (n + 1)).fd := fun e => hfd e.symm
        simp only [Function.update_of_ne hne, ih.sender]
      · intro f
        by_cases hf : f = (s.pfd (n + 1)).fd
        · subst hf
          simpa using ih.rb _
        · simpa only [Function.update_of_ne hf] using ih.rb f

theorem receive_forwarded (s : Server) (connfd : Nat) (bytes : List UInt8) :
    Forwarded connfd s.currentClientNum
      { s with
        clients := Function.update s.clients connfd
          { s.clients connfd with rb := overwrite (s.clients connfd).rb 0 (bytes ++ [0]) } }
      (receive s connfd bytes) :=
  forwarded_loop connfd _ s.currentClientNum

end ServerPoll
end Unpvol1
