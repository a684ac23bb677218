import Unpvol1.Lib.CString
import Unpvol1.Lib.Machine
import Unpvol1.Lib.Socket

/-!
# Chat.MytalkServer

The chat server `9-7mytalk_server.cpp`. It is laid out as `server_poll.c`, but where that clears a
bit of a mask with `&=`, this one writes `|= ~`, which sets all others. The masks are words of 16
bits.

* `iterate`     — the body of the `for` loop; `step` — `poll`, and one turn.
* `Masked`      — each user is asked to be read, or to be written to while a message is queued.
* `Quiet`       — no message has been queued yet.
* `queueAll_fds` — what queueing a message does to the masks.
* `masked_iff`  — the exact condition: no message comes while another user is connected.
-/

namespace Unpvol1
namespace MytalkServer

def USER_LIMIT : Nat := 5
def BUFFER_SIZE : Nat := 64

def POLLIN : BitVec 16 := 0x1
def POLLOUT : BitVec 16 := 0x4
def POLLERR : BitVec 16 := 0x8
def POLLRDHUP : BitVec 16 := 0x2000

/-- What `poll` reports whether it is asked for or not: POLLERR, POLLHUP and POLLNVAL. -/
def unasked : BitVec 16 := 0x38

structure PollFd where
  fd : Int
  events : BitVec 16
  revents : BitVec 16
deriving DecidableEq

/-- `writeBuf` points into the `buf` of the user it names. -/
structure ClientData where
  writeBuf : Option Int
  buf : List UInt8
deriving DecidableEq

structure Server where
  listenfd : Int
  fds : Nat → PollFd
  userCounter : Nat
  users : Int → ClientData

/-- What the kernel has in store for a turn: a connection, and what a `recv` brings. -/
structure Outcome where
  accept : Option Int
  recv : RecvOutcome

/-- A system call that succeeded, as it is seen from outside. -/
inductive Act where
  | accept (fd : Int)
  | close (fd : Int)
  | recv (fd : Int) (bytes : List UInt8)
  | send (fd : Int) (bytes : List UInt8)
deriving DecidableEq

/-- A bit of a mask is set. -/
def has (mask bit : BitVec 16) : Bool := mask &&& bit ≠ 0

/-- `main` before its loop; `new` leaves the users as the memory is. -/
def init (listenfd : Int) (users : Int → ClientData) : Server where
  listenfd := listenfd
  fds := Function.update (fun _ => ⟨-1, 0, 0⟩) 0 ⟨listenfd, POLLIN ||| POLLERR, 0⟩
  userCounter := 0
  users := users

def addUser (s : Server) (connfd : Int) : Server :=
  { s with
    userCounter := s.userCounter + 1
    fds := Function.update s.fds (s.userCounter + 1)
      ⟨connfd, POLLIN ||| POLLRDHUP ||| POLLERR, 0⟩ }

/-- Both removal branches. -/
def removeUser (s : Server) (i : Nat) : Server :=
  { s with
    users := Function.update s.users (s.fds i).fd (s.users (s.fds s.userCounter).fd)
    fds := Function.update s.fds i (s.fds s.userCounter)
    userCounter := s.userCounter - 1 }

/-- One pass of the loop over the users: `events |= ~POLLIN` and `events |= POLLOUT`. -/
def queueTo (connfd : Int) (s : Server) (j : Nat) : Server :=
  let p := s.fds j
  if p.fd = connfd then s
  else
    { s with
      fds := Function.update s.fds j { p with events := p.events ||| ~~~POLLIN ||| POLLOUT }
      users := Function.update s.users p.fd { s.users p.fd with writeBuf := some connfd } }

def queueAll (s : Server) (connfd : Int) : Server :=
  (List.range s.userCounter).foldl (fun s k => queueTo connfd s (k + 1)) s

/-- `memset`, and the bytes of `recv`. -/
def fill (s : Server) (connfd : Int) (bytes : List UInt8) : Server :=
  let info := s.users connfd
  { s with
    users := Function.update s.users connfd
      { info with buf := overwrite (List.replicate BUFFER_SIZE 0) 0 bytes } }

/-- Behind `send`: `events |= ~POLLOUT` and `events |= POLLIN`. -/
def flush (s : Server) (i : Nat) : Server :=
  let p := s.fds i
  { s with
    users := Function.update s.users p.fd { s.users p.fd with writeBuf := none }
    fds := Function.update s.fds i { p with events := p.events ||| ~~~POLLOUT ||| POLLIN } }

/-- The body of the loop at `i`, the next value of `i`, and the calls it made. -/
def iterate (s : Server) (i : Nat) (o : Outcome) : Server × Nat × List Act :=
  let p := s.fds i
  if p.fd = s.listenfd ∧ has p.revents POLLIN then
    match o.accept with
    | none => (s, i + 1, [])
    | some connfd =>
      if s.userCounter ≥ USER_LIMIT then (s, i + 1, [.accept connfd, .close connfd])
      else (addUser s connfd, i + 1, [.accept connfd])
  else if has p.revents POLLERR then (s, i + 1, [])
  else if has p.revents POLLRDHUP then (removeUser s i, i, [.close p.fd])
  else if has p.revents POLLIN then
    match Unpvol1.recv (BUFFER_SIZE - 1) o.recv with
    | .err e =>
      let s := fill s p.fd []
      if e ≠ .again then (removeUser s i, i, [.close p.fd]) else (s, i + 1, [])
    | .got [] => (fill s p.fd [], i + 1, [])
    | .got bytes => (queueAll (fill s p.fd bytes) p.fd, i + 1, [.recv p.fd bytes])
  else if has p.revents POLLOUT then
    match (s.users p.fd).writeBuf with
    | none => (s, i + 1, [])
    | some q => (flush s i, i + 1, [.send p.fd (cstr (s.users q).buf 0)])
  else (s, i + 1, [])

/-- `cursor` is where the scan is; `queued` are the users with a message that was queued and not
flushed since. -/
structure State where
  server : Server
  cursor : Option Nat
  broken : Bool
  queued : Int → Bool

inductive Step where
  /-- `poll` with its result, or its failure, at which the loop is left. -/
  | poll (result : Option (Nat → BitVec 16))
  | iterate (o : Outcome)

def polled (s : Server) (result : Nat → BitVec 16) : Server :=
  { s with
    fds := fun j => if j ≤ s.userCounter then { s.fds j with revents := result j } else s.fds j }

/-- A message is queued for each user in the slots, its sender apart. -/
def queuedAfter (s : Server) (queued : Int → Bool) : Act → Int → Bool
  | .accept fd => Function.update queued fd false
  | .close fd => Function.update queued fd false
  | .recv fd _ => fun f =>
    queued f || decide (f ≠ fd ∧ ∃ j < s.userCounter, (s.fds (j + 1)).fd = f)
  | .send fd _ => Function.update queued fd false

def step (s : State) : Step → State
  | .poll none => { s with broken := true }
  | .poll (some r) => { s with server := polled s.server r, cursor := some 0 }
  | .iterate o =>
    match s.cursor with
    | none => s
    | some i =>
      let (server, i', acts) := iterate s.server i o
      { s with
        server := server
        cursor := if i' < server.userCounter + 1 then some i' else none
        queued := acts.foldl (queuedAfter s.server) s.queued }

/-- `poll` reports what is asked for, and errors. -/
def Reported (events revents : BitVec 16) : Prop := revents &&& ~~~(events ||| unasked) = 0

instance (events revents : BitVec 16) : Decidable (Reported events revents) :=
  inferInstanceAs (Decidable (_ = _))

/-- `poll` and the scan take turns. -/
def enabled (s : State) : Step → Prop
  | .poll result => s.cursor = none ∧ s.broken = false ∧
      ∀ r ∈ result, ∀ j ≤ s.server.userCounter, Reported (s.server.fds j).events (r j)
  | .iterate o => s.cursor ≠ none ∧ ∀ fd ∈ o.accept, fd ≠ s.server.listenfd

def machine : Machine State Step := ⟨step, enabled⟩

instance (s : State) : (st : Step) → Decidable (machine.ok s st)
  | .poll result => inferInstanceAs (Decidable (_ ∧ _ ∧ ∀ r ∈ result, ∀ j ≤ _, Reported _ _))
  | .iterate o => inferInstanceAs (Decidable (_ ∧ ∀ fd ∈ o.accept, fd ≠ _))

def start (listenfd : Int) (users : Int → ClientData) : State where
  server := init listenfd users
  cursor := none
  broken := false
  queued := fun _ => false

/-- POLLOUT and not POLLIN while a message is queued, and the other way otherwise. -/
def MaskOf (queued : Int → Bool) (p : PollFd) : Prop :=
  has p.events POLLOUT = queued p.fd ∧ has p.events POLLIN = !queued p.fd

def Masked (s : State) : Prop :=
  ∀ j < s.server.userCounter, MaskOf s.queued (s.server.fds (j + 1))

/-- The turn at slot `i` receives a message of its user. -/
def Brings (s : Server) (i : Nat) (o : Outcome) : Prop :=
  ¬((s.fds i).fd = s.listenfd ∧ has (s.fds i).revents POLLIN = true) ∧
    has (s.fds i).revents POLLERR = false ∧ has (s.fds i).revents POLLRDHUP = false ∧
    has (s.fds i).revents POLLIN = true ∧
    ∃ b bytes, Unpvol1.recv (BUFFER_SIZE - 1) o.recv = .got (b :: bytes)

/-- No message comes while another user is connected. -/
def Alone (s : State) : Step → Prop
  | .poll _ => True
  | .iterate o => ∀ i, s.cursor = some i → Brings s.server i o →
      ∀ j < s.server.userCounter, (s.server.fds (j + 1)).fd = (s.server.fds i).fd

/-! ## The masks -/

theorem has_zero (bit : BitVec 16) : has 0 bit = false := by
  simp [has]

theorem not_reported {events revents bit : BitVec 16} (h : Reported events revents)
    (hbit : ~~~(events ||| unasked) &&& bit = bit) : has revents bit = false := by
  have hzero : revents &&& bit = 0 := by
    rw [← hbit, ← BitVec.and_assoc, h]
    exact BitVec.zero_and
  simp [has, hzero]

/-- What a user asks for before a message has been queued for it. -/
def joinMask : BitVec 16 := POLLIN ||| POLLRDHUP ||| POLLERR

/-- A slot of a user before a message has been queued for it. -/
structure Fresh (p : PollFd) : Prop where
  events : p.events = joinMask
  revents : has p.revents POLLOUT = false

/-- Before any message has been queued. -/
structure QuietServer (s : Server) : Prop where
  first : (s.fds 0).fd = s.listenfd
  asks : (s.fds 0).events = POLLIN ||| POLLERR
  calm : has (s.fds 0).revents POLLRDHUP = false ∧ has (s.fds 0).revents POLLOUT = false
  fresh : ∀ j < s.userCounter, Fresh (s.fds (j + 1))

/-- Being quiet is about the slots, not about the users. -/
theorem QuietServer.setUsers {s : Server} (h : QuietServer s) (users : Int → ClientData) :
    QuietServer { s with users := users } := ⟨h.first, h.asks, h.calm, h.fresh⟩

structure Quiet (s : State) : Prop where
  server : QuietServer s.server
  queued : ∀ f, s.queued f = false
  cursor : ∀ i, s.cursor = some i → i ≤ s.server.userCounter

section
variable {s : Server} {connfd : Int}

theorem Fresh.maskOf {p : PollFd} (h : Fresh p) {queued : Int → Bool} (hq : queued p.fd = false) :
    MaskOf queued p := by
  rw [MaskOf, h.events, hq]
  decide

/-- What the loop leaves in a slot: both bits, if the mask was one of a user that is read. -/
theorem not_maskOf {p : PollFd} (h : Fresh p) (queued : Int → Bool) :
    ¬MaskOf queued { p with events := p.events ||| ~~~POLLIN ||| POLLOUT } := by
  rintro ⟨hout, hin⟩
  rw [h.events] at hout hin
  have hboth : has (joinMask ||| ~~~POLLIN ||| POLLOUT) POLLOUT = true ∧
      has (joinMask ||| ~~~POLLIN ||| POLLOUT) POLLIN = true := by decide
  rw [← hout, hboth.1, hboth.2] at hin
  cases hin

/-! ## Queueing -/

/-- The masks after the first `n` users, by induction on `n`. -/
theorem queueLoop_fds (s : Server) (connfd : Int) (n k : Nat) :
    ((List.range n).foldl (fun s k => queueTo connfd s (k + 1)) s).fds k =
      if (s.fds k).fd ≠ connfd ∧ 0 < k ∧ k ≤ n then
        { s.fds k with events := (s.fds k).events ||| ~~~POLLIN ||| POLLOUT }
      else s.fds k := by
  induction n with
  | zero =>
    have hno : ¬((s.fds k).fd ≠ connfd ∧ 0 < k ∧ k ≤ 0) := by omega
    rw [if_neg hno]
    rfl
  | succ n ih =>
    rw [List.range_succ, List.foldl_append, List.foldl_cons, List.foldl_nil]
    generalize (List.range n).foldl (fun s k => queueTo connfd s (k + 1)) s = t at ih
    by_cases hk : k = n + 1
    · subst hk
      have hslot : t.fds (n + 1) = s.fds (n + 1) := by
        rw [ih, if_neg (by omega)]
      by_cases hfd : (s.fds (n + 1)).fd = connfd
      · simp only [queueTo, hslot, hfd, if_true, ne_eq, not_true_eq_false, false_and, if_false]
      · simp only [queueTo, hslot, hfd, if_false, Function.update_self, ne_eq, not_false_eq_true,
          Nat.zero_lt_succ, Nat.le_refl, and_self, if_true]
    · have hother : (queueTo connfd t (n + 1)).fds k = t.fds k := by
        unfold queueTo
        dsimp only
        split
        · rfl
        · exact Function.update_of_ne hk _ _
      have hle : k ≤ n + 1 ↔ k ≤ n := by omega
      rw [hother, ih]
      simp only [hle]

theorem queueAll_fds (s : Server) (connfd : Int) (k : Nat) : (queueAll s connfd).fds k =
    if (s.fds k).fd ≠ connfd ∧ 0 < k ∧ k ≤ s.userCounter then
      { s.fds k with events := (s.fds k).events ||| ~~~POLLIN ||| POLLOUT }
    else s.fds k :=
  queueLoop_fds s connfd s.userCounter k

/-- The loop leaves all but the slots and the users alone. -/
theorem queueAll_frame (s : Server) (connfd : Int) :
    (queueAll s connfd).listenfd = s.listenfd ∧
      (queueAll s connfd).userCounter = s.userCounter := by
  suffices ∀ n, ((List.range n).foldl (fun s k => queueTo connfd s (k + 1)) s).listenfd =
      s.listenfd ∧ ((List.range n).foldl (fun s k => queueTo connfd s (k + 1)) s).userCounter =
      s.userCounter from this s.userCounter
  intro n
  induction n with
  | zero => exact ⟨rfl, rfl⟩
  | succ n ih =>
    rw [List.range_succ, List.foldl_append, List.foldl_cons, List.foldl_nil]
    generalize (List.range n).foldl (fun s k => queueTo connfd s (k + 1)) s = t at ih
    unfold queueTo
    dsimp only
    split
    · exact ih
    · exact ih

/-! ## One turn -/

/-- What a turn can do where no message has been queued: only the one that receives queues. -/
inductive Turn (s : Server) (i : Nat) (o : Outcome) : Server × Nat × List Act → Prop where
  | stays (users : Int → ClientData) (acts : List Act) (hb : ¬Brings s i o)
      (hacts : ∀ a ∈ acts, ∃ fd, a = .accept fd ∨ a = .close fd) :
      Turn s i o ({ s with users := users }, i + 1, acts)
  | joined (connfd : Int) (hb : ¬Brings s i o) :
      Turn s i o (addUser s connfd, i + 1, [.accept connfd])
  | left (users : Int → ClientData) (hb : ¬Brings s i o)
      (hi : has (s.fds i).revents POLLRDHUP = true ∨
        (s.fds i).fd ≠ s.listenfd) :
      Turn s i o (removeUser { s with users := users } i, i, [.close (s.fds i).fd])
  | received (users : Int → ClientData) (bytes : List UInt8) (hb : Brings s i o) :
      Turn s i o (queueAll { s with users := users } (s.fds i).fd, i + 1,
        [.recv (s.fds i).fd bytes])

theorem iterate_turn (i : Nat) (hout : has (s.fds i).revents POLLOUT = false) (o : Outcome) :
    Turn s i o (iterate s i o) := by
  have hnone : ∀ a ∈ ([] : List Act), ∃ fd, a = .accept fd ∨ a = .close fd := nofun
  unfold iterate
  by_cases hl : (s.fds i).fd = s.listenfd ∧ has (s.fds i).revents POLLIN = true
  · have hb : ¬Brings s i o := fun hb => hb.1 hl
    simp only [hl, and_self, if_true]
    cases o.accept with
    | none => exact .stays s.users [] hb hnone
    | some connfd =>
      by_cases hfull : s.userCounter ≥ USER_LIMIT
      · simp only [hfull, if_true]
        refine .stays s.users _ hb fun a ha => ?_
        rcases List.mem_cons.mp ha with rfl | ha
        · exact ⟨connfd, .inl rfl⟩
        · exact ⟨connfd, .inr (List.mem_singleton.mp ha)⟩
      · simp only [hfull, if_false]
        exact .joined connfd hb
  · simp only [hl, if_false]
    cases herr : has (s.fds i).revents POLLERR with
    | true =>
      have hb : ¬Brings s i o := fun hb => by simp [hb.2.1] at herr
      exact .stays s.users [] hb hnone
    | false =>
      cases hrdhup : has (s.fds i).revents POLLRDHUP with
      | true =>
        have hb : ¬Brings s i o := fun hb => by simp [hb.2.2.1] at hrdhup
        exact .left s.users hb (.inl hrdhup)
      | false =>
        cases hin : has (s.fds i).revents POLLIN with
        | true =>
          have hfd : (s.fds i).fd ≠ s.listenfd := fun hfd => hl ⟨hfd, hin⟩
          simp only [Bool.false_eq_true, if_true, if_false]
          cases hr : Unpvol1.recv (BUFFER_SIZE - 1) o.recv with
          | err e =>
            have hb : ¬Brings s i o := by
              rintro ⟨_, _, _, _, b, bytes, hbytes⟩
              rw [hr] at hbytes
              cases hbytes
            by_cases he : e = .again
            · subst he
              exact .stays _ [] hb hnone
            · simp only [ne_eq, he, not_false_eq_true, if_true]
              exact .left _ hb (.inr hfd)
          | got bytes =>
            cases bytes with
            | nil =>
              refine .stays _ [] ?_ hnone
              rintro ⟨_, _, _, _, b, bytes, hbytes⟩
              rw [hr] at hbytes
              cases hbytes
            | cons b bytes => exact .received _ (b :: bytes) ⟨hl, herr, hrdhup, hin, b, bytes, hr⟩
        | false =>
          have hb : ¬Brings s i o := fun hb => by simp [hb.2.2.2.1] at hin
          simp only [hout, Bool.false_eq_true, if_false]
          exact .stays s.users [] hb hnone

theorem QuietServer.addUser (h : QuietServer s) (connfd : Int) :
    QuietServer (addUser s connfd) := by
  have h0 : (MytalkServer.addUser s connfd).fds 0 = s.fds 0 := by
    simp [MytalkServer.addUser]
  refine ⟨h0 ▸ h.first, h0 ▸ h.asks, h0 ▸ h.calm, fun j hj => ?_⟩
  rcases Nat.lt_succ_iff_lt_or_eq.mp hj with hlt | rfl
  · have hne : j + 1 ≠ s.userCounter + 1 := by omega
    simp only [MytalkServer.addUser, Function.update_of_ne hne]
    exact h.fresh j hlt
  · simp only [MytalkServer.addUser, Function.update_self]
    exact ⟨rfl, has_zero POLLOUT⟩

theorem QuietServer.removeUser (h : QuietServer s) {i : Nat} (hi : i < s.userCounter)
    (users : Int → ClientData) : QuietServer (removeUser { s with users := users } (i + 1)) := by
  have h0 : (MytalkServer.removeUser { s with users := users } (i + 1)).fds 0 = s.fds 0 := by
    simp [MytalkServer.removeUser]
  refine ⟨h0 ▸ h.first, h0 ▸ h.asks, h0 ▸ h.calm, fun j hj => ?_⟩
  have hj : j < s.userCounter - 1 := hj
  simp only [MytalkServer.removeUser]
  by_cases hji : j = i
  · subst hji
    have hlast : s.userCounter - 1 + 1 = s.userCounter := by omega
    rw [Function.update_self, ← hlast]
    exact h.fresh (s.userCounter - 1) (by omega)
  · have hne : j + 1 ≠ i + 1 := by omega
    rw [Function.update_of_ne hne]
    exact h.fresh j (by omega)

theorem QuietServer.polled (h : QuietServer s) {r : Nat → BitVec 16}
    (hr : ∀ j ≤ s.userCounter, Reported (s.fds j).events (r j)) : QuietServer (polled s r) := by
  have h0 : (MytalkServer.polled s r).fds 0 = { s.fds 0 with revents := r 0 } := by
    simp [MytalkServer.polled]
  have hr0 := hr 0 (Nat.zero_le _)
  rw [h.asks] at hr0
  refine ⟨h0 ▸ h.first, h0 ▸ h.asks, ?_, fun j hj => ?_⟩
  · rw [h0]
    exact ⟨not_reported hr0 (by decide), not_reported hr0 (by decide)⟩
  · have hj' : j + 1 ≤ s.userCounter := hj
    have hrj := hr (j + 1) hj'
    have hfresh := h.fresh j hj
    rw [hfresh.events] at hrj
    simp only [MytalkServer.polled, hj', if_true]
    exact ⟨hfresh.events, not_reported hrj (by decide)⟩

/-- The masks stay where no other user is connected. -/
theorem queueAll_alone (halone : ∀ j < s.userCounter, (s.fds (j + 1)).fd = connfd) (k : Nat) :
    (queueAll s connfd).fds k = s.fds k := by
  rw [queueAll_fds, if_neg]
  rintro ⟨hne, hpos, hk⟩
  have hk' := halone (k - 1) (by omega)
  rw [Nat.sub_add_cancel hpos] at hk'
  exact hne hk'

theorem QuietServer.queueAll (h : QuietServer s)
    (halone : ∀ j < s.userCounter, (s.fds (j + 1)).fd = connfd) :
    QuietServer (queueAll s connfd) := by
  have hfds := queueAll_alone halone
  obtain ⟨hlisten, hnum⟩ := queueAll_frame s connfd
  refine ⟨?_, hfds 0 ▸ h.asks, hfds 0 ▸ h.calm, fun j hj => ?_⟩
  · rw [hfds 0, hlisten]
    exact h.first
  · rw [hfds (j + 1)]
    exact h.fresh j (hnum ▸ hj)

/-- Another user that is connected is asked for more than it should be. -/
theorem QuietServer.queueAll_not_maskOf (h : QuietServer s) {j : Nat} (hj : j < s.userCounter)
    (hne : (s.fds (j + 1)).fd ≠ connfd) (queued : Int → Bool) :
    ¬MaskOf queued ((MytalkServer.queueAll s connfd).fds (j + 1)) := by
  rw [queueAll_fds, if_pos ⟨hne, Nat.succ_pos j, hj⟩]
  exact not_maskOf (h.fresh j hj) queued

/-- No slot up to the last user is found writable. -/
theorem QuietServer.notWritable (h : QuietServer s) {i : Nat} (hi : i ≤ s.userCounter) :
    has (s.fds i).revents POLLOUT = false := by
  cases i with
  | zero => exact h.calm.2
  | succ i => exact (h.fresh i hi).revents

end

/-! ## Runs -/

section
variable {s : State}

theorem Quiet.masked (h : Quiet s) : Masked s := fun j hj =>
  (h.server.fresh j hj).maskOf (h.queued _)

theorem quiet_start (listenfd : Int) (users : Int → ClientData) :
    Quiet (start listenfd users) where
  server := ⟨rfl, rfl, ⟨has_zero _, has_zero _⟩, fun _ hj => absurd hj (Nat.not_lt_zero _)⟩
  queued := fun _ => rfl
  cursor := nofun

/-- Connections and departures queue nothing. -/
theorem queuedAfter_false (server : Server) (acts : List Act) {queued : Int → Bool}
    (hq : ∀ f, queued f = false) (hacts : ∀ a ∈ acts, ∃ fd, a = .accept fd ∨ a = .close fd)
    (f : Int) : acts.foldl (queuedAfter server) queued f = false := by
  induction acts generalizing queued with
  | nil => exact hq f
  | cons a acts ih =>
    obtain ⟨ha, hacts⟩ := List.forall_mem_cons.mp hacts
    refine ih (fun f => ?_) hacts
    obtain ⟨fd, rfl | rfl⟩ := ha
    · by_cases hf : f = fd
      · simp [queuedAfter, hf]
      · simp [queuedAfter, hf, hq]
    · by_cases hf : f = fd
      · simp [queuedAfter, hf]
      · simp [queuedAfter, hf, hq]

theorem alone_iff {o : Outcome} {i : Nat} (hi : s.cursor = some i) : Alone s (.iterate o) ↔
    (Brings s.server i o → ∀ j < s.server.userCounter,
      (s.server.fds (j + 1)).fd = (s.server.fds i).fd) := by
  rw [Alone]
  constructor
  · exact fun h => h i hi
  · intro h j hj
    rw [hi] at hj
    cases hj
    exact h

/-- Where the scan is after a turn. -/
theorem cursor_le {n i' j : Nat} (h : (if i' < n + 1 then some i' else none) = some j) : j ≤ n := by
  split at h
  · cases h
    omega
  · cases h

/-- A turn that queues nothing leaves it quiet; one that does leaves a mask with both bits. -/
theorem quiet_iterate (h : Quiet s) {o : Outcome} {i : Nat} (hi : s.cursor = some i) :
    (Alone s (.iterate o) → Quiet (machine.step s (.iterate o))) ∧
      (¬Alone s (.iterate o) → ¬Masked (machine.step s (.iterate o))) := by
  have hle := h.cursor i hi
  have ht := iterate_turn i (h.server.notWritable hle) o
  rw [alone_iff hi]
  show (_ → Quiet (step s (.iterate o))) ∧ (_ → ¬Masked (step s (.iterate o)))
  simp only [step, hi]
  generalize iterate s.server i o = r at ht
  cases ht with
  | stays users acts hb hacts =>
    refine ⟨fun _ => ⟨h.server.setUsers users, ?_, fun j => cursor_le⟩,
      fun hno => absurd (fun hb' => absurd hb' hb) hno⟩
    exact queuedAfter_false s.server acts h.queued hacts
  | joined connfd hb =>
    refine ⟨fun _ => ⟨h.server.addUser connfd, ?_, fun j => cursor_le⟩,
      fun hno => absurd (fun hb' => absurd hb' hb) hno⟩
    refine queuedAfter_false s.server _ h.queued fun a ha => ?_
    exact ⟨connfd, .inl (List.mem_singleton.mp ha)⟩
  | left users hb hleft =>
    refine ⟨fun _ => ⟨?_, ?_, fun j => cursor_le⟩, fun hno => absurd (fun hb' => absurd hb' hb) hno⟩
    · cases i with
      | zero =>
        rcases hleft with hrdhup | hfd
        · rw [h.server.calm.1] at hrdhup
          cases hrdhup
        · exact absurd h.server.first hfd
      | succ i => exact h.server.removeUser hle users
    · refine queuedAfter_false s.server _ h.queued fun a ha => ?_
      exact ⟨_, .inr (List.mem_singleton.mp ha)⟩
  | received users bytes hb =>
    have hnum := (queueAll_frame { s.server with users := users } (s.server.fds i).fd).2
    constructor
    · intro halone
      refine ⟨(h.server.setUsers users).queueAll (halone hb), fun f => ?_, fun j => cursor_le⟩
      show (s.queued f || decide _) = false
      rw [h.queued f, Bool.false_or, decide_eq_false_iff_not]
      rintro ⟨hne, j, hj, rfl⟩
      exact hne (halone hb j hj)
    · intro hno hmasked
      obtain ⟨j, hj, hne⟩ : ∃ j < s.server.userCounter,
          (s.server.fds (j + 1)).fd ≠ (s.server.fds i).fd := by
        by_contra hall
        push Not at hall
        exact hno fun _ => hall
      exact (h.server.setUsers users).queueAll_not_maskOf hj hne _ (hmasked j (hnum.symm ▸ hj))

theorem quiet_step (s : State) (st : Step) (h : Quiet s) (hok : machine.ok s st) :
    (Alone s st → Quiet (machine.step s st)) ∧ (¬Alone s st → ¬Masked (machine.step s st)) := by
  cases st with
  | poll result =>
    refine ⟨fun _ => ?_, fun hno => absurd trivial hno⟩
    cases result with
    | none => exact ⟨h.server, h.queued, h.cursor⟩
    | some r =>
      refine ⟨h.server.polled (hok.2.2 r rfl), h.queued, fun i hi => ?_⟩
      cases hi
      exact Nat.zero_le _
  | iterate o =>
    obtain ⟨i, hi⟩ := Option.ne_none_iff_exists'.mp hok.1
    exact quiet_iterate h hi

/-- Every user is asked, in every state of a run, for just what it should be, as long as no message
comes while another user is connected, and no longer. -/
theorem masked_iff (listenfd : Int) (users : Int → ClientData) (steps : List Step)
    (hv : machine.Valid (start listenfd users) steps) :
    machine.Always Masked (start listenfd users) steps ↔
      machine.Each Alone (start listenfd users) steps := by
  have hstart := quiet_start listenfd users
  refine Machine.always_iff_each_of (I := Quiet) ?_ ?_ hstart hstart.masked hv
  · intro s st h hok _
    obtain ⟨hkeep, hbreak⟩ := quiet_step s st h hok
    exact ⟨fun hm => not_not.mp fun hno => hbreak hno hm, fun ha => (hkeep ha).masked⟩
  · intro s st h hok _ hm
    obtain ⟨hkeep, hbreak⟩ := quiet_step s st h hok
    exact hkeep (not_not.mp fun hno => hbreak hno hm)

def noUsers : Int → ClientData := fun _ => ⟨none, []⟩

/-- Two users join, and the first sends a message. -/
def oneMessage : List Step :=
  let readable : Nat → BitVec 16 := fun j => if j = 0 then POLLIN else 0
  let idle : Step := .iterate ⟨none, .fail .again⟩
  [.poll (some readable), .iterate ⟨some 4, .fail .again⟩, idle,
    .poll (some readable), .iterate ⟨some 5, .fail .again⟩, idle, idle,
    .poll (some fun j => if j = 1 then POLLIN else 0), idle, .iterate ⟨none, .data [97]⟩]

theorem masked_iff_oneMessage :
    machine.Always Masked (start 3 noUsers) oneMessage ↔
      machine.Each Alone (start 3 noUsers) oneMessage :=
  masked_iff 3 noUsers oneMessage (by decide +kernel)

/-- The second then is asked for everything, and still is when it has been flushed. -/
theorem not_masked :
    let writable : Nat → BitVec 16 := fun j => if j = 2 then POLLOUT else 0
    let idle : Step := .iterate ⟨none, .fail .again⟩
    let steps := oneMessage ++ [idle, .poll (some writable), idle, idle, idle]
    machine.Valid (start 3 noUsers) steps ∧
      ¬machine.Always Masked (start 3 noUsers) steps ∧
      ((machine.run (start 3 noUsers) steps).server.fds 2).events = 0xFFFF ∧
      (machine.run (start 3 noUsers) steps).queued 5 = false := by
  intro writable idle steps
  have hmask : ((machine.run (start 3 noUsers) steps).server.fds 2).events = 0xFFFF ∧
      (machine.run (start 3 noUsers) steps).queued 5 = false := by decide +kernel
  refine ⟨by decide +kernel, fun h => ?_, hmask⟩
  have hlast := (h.last 1 (by decide +kernel)).1
  revert hlast
  decide +kernel

end

end MytalkServer
end Unpvol1
