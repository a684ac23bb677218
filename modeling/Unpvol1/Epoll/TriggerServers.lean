import Mathlib.Data.List.Nodup
import Mathlib.Data.List.Perm.Subperm
import Mathlib.Logic.Function.Basic
import Unpvol1.Lib.Progress
import Unpvol1.Lib.Watch

/-!
# Epoll.TriggerServers

The single-threaded epoll servers: `epoll_server_level_trigger.c`, `epoll_server_edge_trigger.c`,
`epoll-example-server.c`, and `lt` and `et` of `9-3mtlt.cpp`. They share one event loop and differ
in how a socket is registered and in what one event of it is followed by. Clients connect, send,
shut down and reset between any two calls.

* `rest_read`   — whenever `epoll_wait` has nothing to report, every registered connection has been
  read empty, and what was read of it is all that came.
* `rest_queue`  — where the `accept` is in a loop, or the listening socket level-triggered, nobody
  waits to be accepted then, unless the loop was broken off since the last arrival.
* `rest_missed` — where one edge is answered by one `accept`, exactly those wait who arrived while
  an edge was still to be reported, or whose `accept` failed.
* `comes_to_rest` — left alone, the server gets there.
-/

namespace Unpvol1
namespace TriggerServers

/-- What the servers differ in. -/
structure Server where
  bufsize : Nat
  maxevents : Nat
  /-- How the listening socket is registered. -/
  listening : Trigger
  /-- How a connection is registered. -/
  connected : Trigger
  /-- An event with `EPOLLERR` or `EPOLLHUP` has the descriptor closed at once. -/
  testsError : Bool
  acceptLoop : Bool
  readLoop : Bool
  /-- The sockets are set `O_NONBLOCK`. -/
  nonblock : Bool
  /-- A failing `fcntl` or `epoll_ctl` on a new connection ends the program. -/
  strict : Bool
  /-- What is read goes through `write`, which may end the program. -/
  checksWrite : Bool
  closesOnError : Bool
  /-- The loop goes on after a `read` of 0 and the `close`. -/
  readsOn : Bool

def levelTrigger : Server where
  bufsize := 1024
  maxevents := 64
  listening := .level
  connected := .level
  testsError := true
  acceptLoop := false
  readLoop := false
  nonblock := false
  strict := false
  checksWrite := false
  closesOnError := false
  readsOn := false

def edgeTrigger : Server where
  bufsize := 1024
  maxevents := 64
  listening := .edge
  connected := .edge
  testsError := true
  acceptLoop := true
  readLoop := true
  nonblock := true
  strict := false
  checksWrite := true
  closesOnError := true
  readsOn := false

def exampleServer : Server where
  bufsize := 512
  maxevents := 64
  listening := .edge
  connected := .edge
  testsError := true
  acceptLoop := true
  readLoop := true
  nonblock := true
  strict := true
  checksWrite := true
  closesOnError := true
  readsOn := false

/-- `addfd( epollfd, listenfd, true )` in `main` also with `lt`. -/
def lt : Server where
  bufsize := 9
  maxevents := 1024
  listening := .edge
  connected := .level
  testsError := false
  acceptLoop := false
  readLoop := false
  nonblock := true
  strict := false
  checksWrite := false
  closesOnError := true
  readsOn := false

def et : Server where
  bufsize := 9
  maxevents := 1024
  listening := .edge
  connected := .edge
  testsError := false
  acceptLoop := false
  readLoop := true
  nonblock := true
  strict := false
  checksWrite := false
  closesOnError := true
  readsOn := true

def servers : List Server := [levelTrigger, edgeTrigger, exampleServer, lt, et]

/-- The server's end of a connection: `who` made it, what has come and was not read, whether the
other end was shut down or reset. -/
structure Peer where
  who : Nat
  data : List UInt8
  fin : Bool
  reset : Bool

/-- What `EPOLLIN` stands for. -/
def Peer.Readable (p : Peer) : Prop := p.data ≠ [] ∨ p.fin = true ∨ p.reset = true

instance (p : Peer) : Decidable p.Readable := inferInstanceAs (Decidable (_ ∨ _ ∨ _))

/-- An open descriptor; one that `epoll_ctl` failed for has no `watch`. -/
structure Conn where
  fd : Nat
  peer : Peer
  blocking : Bool
  watch : Option Watch

inductive Event where
  | listening
  /-- `error` is `EPOLLERR` or `EPOLLHUP`. -/
  | conn (fd : Nat) (error : Bool)
deriving DecidableEq

/-- The call the server makes next. -/
inductive Pc where
  /-- At the head of the `for` loop, or in `epoll_wait` when the loop is done. -/
  | loop
  | accepting
  | adding (connfd : Nat)
  | reading (fd : Nat)
  | aborted
deriving DecidableEq

/-- `batch` are the events the `for` loop has still to come to. `sent` is what has come from each
client, `received` what was read from it: what is printed of that is not modelled. -/
structure State where
  queue : List Peer
  listen : Watch
  conns : List Conn
  batch : List Event
  pc : Pc
  arrived : Nat
  sent : Nat → List UInt8
  received : List (Nat × List UInt8)

inductive Accepted where
  | again
  | error
  | conn (connfd : Nat)
deriving DecidableEq

inductive ReadResult where
  /-- How much is read, and whether the `write` of it succeeds. -/
  | data (count : Nat) (written : Bool)
  | eof
  | again
  | error
deriving DecidableEq

inductive Input where
  | connect
  | send (who : Nat) (bs : List UInt8)
  | shut (who : Nat)
  | reset (who : Nat)
  | wait (events : List Event)
  | next
  | accept (result : Accepted)
  /-- `fcntl` and `epoll_ctl` on a new connection. -/
  | add (set added : Bool)
  | read (result : ReadResult)

/-! ## The clients -/

def Conn.touch (who : Nat) (f : Peer → Peer) (c : Conn) : Conn :=
  if c.peer.who = who then { c with peer := f c.peer, watch := c.watch.map Watch.signal } else c

/-- Something comes from `who`, whose connection may not have been accepted yet. -/
def touch (who : Nat) (f : Peer → Peer) (s : State) : State :=
  { s with
    queue := s.queue.map fun p => if p.who = who then f p else p
    conns := s.conns.map (Conn.touch who f) }

def Peer.deliver (bs : List UInt8) (p : Peer) : Peer := { p with data := p.data ++ bs }
def Peer.shut (p : Peer) : Peer := { p with fin := true }
def Peer.toReset (p : Peer) : Peer := { p with reset := true }

def connect (s : State) : State :=
  { s with
    queue := s.queue ++ [⟨s.arrived, [], false, false⟩]
    listen := s.listen.signal
    arrived := s.arrived + 1 }

/-! ## The server -/

instance (fd : Nat) (events : List Event) : Decidable (∃ error, Event.conn fd error ∈ events) :=
  decidable_of_iff (Event.conn fd true ∈ events ∨ Event.conn fd false ∈ events)
    ⟨fun h => h.elim (⟨true, ·⟩) (⟨false, ·⟩), by
      rintro ⟨error, h⟩
      cases error
      · exact .inr h
      · exact .inl h⟩

def Conn.report (events : List Event) (c : Conn) : Conn :=
  if ∃ error, Event.conn c.fd error ∈ events then { c with watch := c.watch.map Watch.report }
  else c

def wait (events : List Event) (s : State) : State :=
  { s with
    listen := if Event.listening ∈ events then s.listen.report else s.listen
    conns := s.conns.map (Conn.report events)
    batch := events }

/-- `close` also takes the descriptor out of epoll. -/
def closeFd (fd : Nat) (s : State) : State :=
  { s with conns := s.conns.filter fun c => decide (c.fd ≠ fd) }

def update (fd : Nat) (f : Conn → Conn) (s : State) : State :=
  { s with conns := s.conns.map fun c => if c.fd = fd then f c else c }

section
variable (k : Server)

/-- The branch of the loop body for an event. -/
def turn (s : State) : Event → State
  | .listening => { s with pc := .accepting }
  | .conn fd error =>
    if k.testsError = true ∧ error = true then closeFd fd s else { s with pc := .reading fd }

/-- A failed `accept` is followed by a `break` or a `continue`. -/
def accept (s : State) : Accepted → State
  | .again | .error => { s with pc := .loop }
  | .conn connfd =>
    match s.queue with
    | [] => s
    | p :: queue =>
      { s with queue := queue, conns := s.conns ++ [⟨connfd, p, true, none⟩], pc := .adding connfd }

def Conn.add (set added : Bool) (c : Conn) : Conn :=
  { c with
    blocking := !(k.nonblock && set)
    watch := if added = true then some (.add k.connected (decide c.peer.Readable)) else none }

def add (connfd : Nat) (set added : Bool) (s : State) : State :=
  if k.strict = true ∧ (set && added) = false then { s with pc := .aborted }
  else
    { update connfd (Conn.add k set added) s with
      pc := if k.acceptLoop = true ∧ added = true then .accepting else .loop }

def Conn.pull (count : Nat) (c : Conn) : Conn :=
  { c with peer := { c.peer with data := c.peer.data.drop count } }

def receive (fd count : Nat) (s : State) : State :=
  { s with
    received := s.received ++ (s.conns.filter fun c => decide (c.fd = fd)).map fun c =>
      (c.peer.who, c.peer.data.take count) }

/-- What follows a `read` of `fd`. `EAGAIN` is an error like others where one `read` is made. -/
def read (fd : Nat) (s : State) : ReadResult → State
  | .data count written =>
    { update fd (Conn.pull count) (receive fd count s) with
      pc := if k.checksWrite = true ∧ written = false then .aborted
        else if k.readLoop = true then .reading fd else .loop }
  | .eof => { closeFd fd s with pc := if k.readsOn = true then .reading fd else .loop }
  | .again =>
    if k.readLoop = false ∧ k.closesOnError = true then { closeFd fd s with pc := .loop }
    else { s with pc := .loop }
  | .error =>
    if k.closesOnError = true then { closeFd fd s with pc := .loop } else { s with pc := .loop }

def step (s : State) : Input → State
  | .connect => connect s
  | .send who bs =>
    { touch who (Peer.deliver bs) s with
      sent := Function.update s.sent who (s.sent who ++ bs) }
  | .shut who => touch who Peer.shut s
  | .reset who => touch who Peer.toReset s
  | .wait events => wait events s
  | .next =>
    match s.batch with
    | [] => s
    | e :: batch => turn k { s with batch := batch } e
  | .accept result => accept s result
  | .add set added =>
    match s.pc with
    | .adding connfd => add k connfd set added s
    | _ => s
  | .read result =>
    match s.pc with
    | .reading fd => read k fd s result
    | _ => s

end

/-! ## What can come -/

/-- The connections that have not been closed here. -/
def peers (s : State) : List Peer := s.queue ++ s.conns.map Conn.peer

/-- `epoll_wait` may report the event. -/
def Reported (s : State) : Event → Prop
  | .listening => s.listen.ready = true ∧ s.queue ≠ []
  | .conn fd error => ∃ c ∈ s.conns, c.fd = fd ∧ c.peer.Readable ∧
      (∃ w ∈ c.watch, w.ready = true) ∧ error = c.peer.reset

instance (s : State) : (e : Event) → Decidable (Reported s e)
  | .listening => inferInstanceAs (Decidable (_ ∧ _))
  | .conn fd error => inferInstanceAs (Decidable (∃ c ∈ s.conns, c.fd = fd ∧ c.peer.Readable ∧
      (∃ w ∈ c.watch, w.ready = true) ∧ error = c.peer.reset))

/-- What a `read` of `fd` may return. -/
def Reads (k : Server) (s : State) (fd : Nat) : ReadResult → Prop
  | .data count _ => ∃ c ∈ s.conns, c.fd = fd ∧
      0 < count ∧ count ≤ k.bufsize ∧ count ≤ c.peer.data.length
  | .eof => ∃ c ∈ s.conns, c.fd = fd ∧ c.peer.data = [] ∧ c.peer.fin = true ∧ c.peer.reset = false
  | .again => ∃ c ∈ s.conns, c.fd = fd ∧ ¬c.peer.Readable ∧ c.blocking = false
  | .error => True

/-- A client that can still send. -/
def Alive (s : State) (who : Nat) : Prop :=
  ∃ p ∈ peers s, p.who = who ∧ p.fin = false ∧ p.reset = false

def ok (k : Server) (s : State) : Input → Prop
  | .connect => True
  | .send who _ => Alive s who
  | .shut who => Alive s who
  | .reset who => ∃ p ∈ peers s, p.who = who
  | .wait events => s.pc = .loop ∧ s.batch = [] ∧ events ≠ [] ∧ events.length ≤ k.maxevents ∧
      events.Nodup ∧ ∀ e ∈ events, Reported s e
  | .next => s.pc = .loop ∧ s.batch ≠ []
  | .accept .again => s.pc = .accepting ∧ s.queue = [] ∧ k.nonblock = true
  | .accept .error => s.pc = .accepting
  | .accept (.conn connfd) =>
      s.pc = .accepting ∧ s.queue ≠ [] ∧ ∀ c ∈ s.conns, c.fd ≠ connfd
  | .add _ _ => ∃ connfd, s.pc = .adding connfd
  | .read result => ∃ fd, s.pc = .reading fd ∧ Reads k s fd result

def machine (k : Server) : Machine State Input := ⟨step k, ok k⟩

instance (k : Server) (s : State) (fd : Nat) : (r : ReadResult) → Decidable (Reads k s fd r)
  | .data count _ => inferInstanceAs (Decidable (∃ c ∈ s.conns, c.fd = fd ∧
      0 < count ∧ count ≤ k.bufsize ∧ count ≤ c.peer.data.length))
  | .eof => inferInstanceAs (Decidable (∃ c ∈ s.conns, c.fd = fd ∧ c.peer.data = [] ∧
      c.peer.fin = true ∧ c.peer.reset = false))
  | .again => inferInstanceAs (Decidable (∃ c ∈ s.conns, c.fd = fd ∧ ¬c.peer.Readable ∧
      c.blocking = false))
  | .error => inferInstanceAs (Decidable True)

instance (s : State) (who : Nat) : Decidable (Alive s who) :=
  inferInstanceAs (Decidable (∃ p ∈ peers s, p.who = who ∧ p.fin = false ∧ p.reset = false))

instance (pc : Pc) : Decidable (∃ connfd, pc = .adding connfd) :=
  match pc with
  | .adding connfd => .isTrue ⟨connfd, rfl⟩
  | .loop | .accepting | .reading _ | .aborted => .isFalse (by simp)

instance (pc : Pc) (P : Nat → Prop) [DecidablePred P] : Decidable (∃ fd, pc = .reading fd ∧ P fd) :=
  match pc with
  | .reading fd => decidable_of_iff (P fd) (by simp)
  | .loop | .accepting | .adding _ | .aborted => .isFalse (by simp)

instance (k : Server) (s : State) : (i : Input) → Decidable ((machine k).ok s i)
  | .connect => inferInstanceAs (Decidable True)
  | .send who _ => inferInstanceAs (Decidable (Alive s who))
  | .shut who => inferInstanceAs (Decidable (Alive s who))
  | .reset who => inferInstanceAs (Decidable (∃ p ∈ peers s, p.who = who))
  | .wait events => inferInstanceAs (Decidable (s.pc = .loop ∧ s.batch = [] ∧ events ≠ [] ∧
      events.length ≤ k.maxevents ∧ events.Nodup ∧ ∀ e ∈ events, Reported s e))
  | .next => inferInstanceAs (Decidable (s.pc = .loop ∧ s.batch ≠ []))
  | .accept .again => inferInstanceAs (Decidable (s.pc = .accepting ∧ s.queue = [] ∧
      k.nonblock = true))
  | .accept .error => inferInstanceAs (Decidable (s.pc = .accepting))
  | .accept (.conn connfd) => inferInstanceAs (Decidable (s.pc = .accepting ∧ s.queue ≠ [] ∧
      ∀ c ∈ s.conns, c.fd ≠ connfd))
  | .add _ _ => inferInstanceAs (Decidable (∃ connfd, s.pc = .adding connfd))
  | .read result => inferInstanceAs (Decidable (∃ fd, s.pc = .reading fd ∧ Reads k s fd result))

/-- The listening socket is registered, nobody has come yet. -/
def start (k : Server) : State where
  queue := []
  listen := .add k.listening false
  conns := []
  batch := []
  pc := .loop
  arrived := 0
  sent := fun _ => []
  received := []

/-- The server is in `epoll_wait`, and there is nothing to report. -/
def AtRest (s : State) : Prop := s.pc = .loop ∧ s.batch = [] ∧ ∀ e, ¬Reported s e

instance (s : State) : Decidable (AtRest s) :=
  decidable_of_iff (s.pc = .loop ∧ s.batch = [] ∧ ¬Reported s .listening ∧
      ∀ c ∈ s.conns, ¬Reported s (.conn c.fd c.peer.reset)) (by
    refine and_congr_right fun _ => and_congr_right fun _ => ⟨?_, fun h => ⟨h _, fun _ _ => h _⟩⟩
    rintro ⟨hlisten, hconns⟩ e he
    cases e with
    | listening => exact hlisten he
    | conn fd error =>
      obtain ⟨c, hc, rfl, _, _, rfl⟩ := id he
      exact hconns c hc he)

/-! ## One descriptor each -/

/-- No two open connections have one descriptor. -/
def Fds (s : State) : Prop := (s.conns.map Conn.fd).Nodup

section
variable {s : State} {c c' : Conn}

theorem Fds.unique (h : Fds s) (hc : c ∈ s.conns) (hc' : c' ∈ s.conns) (hfd : c.fd = c'.fd) :
    c = c' :=
  List.inj_on_of_nodup_map h hc hc' hfd

theorem Fds.congr {s' : State} (h : Fds s)
    (heq : s'.conns.map Conn.fd = s.conns.map Conn.fd) : Fds s' := by
  unfold Fds
  rw [heq]
  exact h

@[simp] theorem touch_fd (who : Nat) (f : Peer → Peer) (c : Conn) : (c.touch who f).fd = c.fd := by
  unfold Conn.touch
  split <;> rfl

@[simp] theorem report_fd (events : List Event) (c : Conn) : (c.report events).fd = c.fd := by
  unfold Conn.report
  split <;> rfl

theorem touch_fds (who : Nat) (f : Peer → Peer) :
    (touch who f s).conns.map Conn.fd = s.conns.map Conn.fd := by
  simp [touch, Function.comp_def]

theorem update_fds (fd : Nat) {f : Conn → Conn} (hf : ∀ c, (f c).fd = c.fd) :
    (update fd f s).conns.map Conn.fd = s.conns.map Conn.fd := by
  simp only [update, List.map_map]
  refine List.map_congr_left fun c _ => ?_
  simp only [Function.comp_apply]
  split
  · exact hf c
  · rfl

theorem Fds.close (h : Fds s) (fd : Nat) : Fds (closeFd fd s) :=
  h.sublist (List.filter_sublist.map Conn.fd)

theorem fds_read {k : Server} {fd : Nat} (h : Fds s) (r : ReadResult) : Fds (read k fd s r) := by
  cases r with
  | data count written =>
    have hfds := update_fds (s := receive fd count s) fd (f := Conn.pull count) fun _ => rfl
    exact h.congr hfds
  | eof => exact h.close fd
  | again =>
    simp only [read]
    split
    · exact h.close fd
    · exact h
  | error =>
    simp only [read]
    split
    · exact h.close fd
    · exact h

theorem fds_step {k : Server} {i : Input} (h : Fds s) (hok : ok k s i) : Fds (step k s i) := by
  cases i with
  | connect => exact h
  | send who bs => exact h.congr (touch_fds who _)
  | shut who => exact h.congr (touch_fds who _)
  | reset who => exact h.congr (touch_fds who _)
  | wait events =>
    have hfds : (wait events s).conns.map Conn.fd = s.conns.map Conn.fd := by
      simp [wait, Function.comp_def]
    exact h.congr hfds
  | next =>
    simp only [step]
    cases s.batch with
    | nil => exact h
    | cons e batch =>
      cases e with
      | listening => exact h
      | conn fd error =>
        simp only [turn]
        split
        · exact Fds.close (s := { s with batch := batch }) h fd
        · exact h
  | accept result =>
    cases result with
    | again => exact h
    | error => exact h
    | conn connfd =>
      obtain ⟨_, _, hfresh⟩ := hok
      simp only [step, accept]
      cases s.queue with
      | nil => exact h
      | cons p queue =>
        unfold Fds at h ⊢
        simp only [List.map_append, List.map_cons, List.map_nil]
        refine h.append (List.nodup_singleton _) ?_
        rintro fd hfd hfd'
        obtain ⟨c, hc, rfl⟩ := List.mem_map.mp hfd
        exact hfresh c hc (List.mem_singleton.mp hfd')
  | add set added =>
    obtain ⟨connfd, hpc⟩ := hok
    simp only [step, hpc, add]
    split
    · exact h
    · have hfds := update_fds (s := s) connfd (f := Conn.add k set added) fun _ => rfl
      exact h.congr hfds
  | read result =>
    obtain ⟨fd, hpc, _⟩ := hok
    simp only [step, hpc]
    exact fds_read h result

end

/-! ## No event is forgotten -/

/-- The `for` loop has still to come to an event of the descriptor, or is at it. -/
def Busy (s : State) (fd : Nat) : Prop :=
  (∃ error, Event.conn fd error ∈ s.batch) ∨ s.pc = .reading fd

def Conn.Heeded (k : Server) (c : Conn) (busy : Prop) : Prop :=
  ∀ w ∈ c.watch, w.trigger = k.connected ∧ w.Covers c.peer.Readable busy

/-- Every registered connection that can be read is in line to be reported, or was and will be
read. -/
def Watched (k : Server) (s : State) : Prop :=
  s.pc ≠ .aborted → ∀ c ∈ s.conns, c.Heeded k (Busy s c.fd)

/-- A server that registers its connections edge-triggered reads them in a loop, and closes those it
cannot read. -/
def Diligent (k : Server) : Prop :=
  k.connected = .edge → k.readLoop = true ∧ k.closesOnError = true

instance (k : Server) : Decidable (Diligent k) := inferInstanceAs (Decidable (_ → _ ∧ _))

theorem servers_diligent : ∀ k ∈ servers, Diligent k := by decide

section
variable {k : Server} {s : State} {c : Conn} {busy busy' : Prop}

theorem Conn.Heeded.mono (h : c.Heeded k busy) (hb : busy → busy') : c.Heeded k busy' :=
  fun w hw => ⟨(h w hw).1, (h w hw).2.mono id hb⟩

theorem Conn.Heeded.touch (h : c.Heeded k busy) (who : Nat) (f : Peer → Peer) :
    (c.touch who f).Heeded k busy := by
  unfold Conn.touch
  split
  · intro w hw
    obtain ⟨w', hw', rfl⟩ := Option.map_eq_some_iff.mp hw
    exact ⟨(h w' hw').1, Watch.signal_covers⟩
  · exact h

theorem Conn.Heeded.report (h : c.Heeded k busy) (events : List Event) (hno : ¬busy) :
    (c.report events).Heeded k (∃ error, Event.conn c.fd error ∈ events) := by
  unfold Conn.report
  split
  next hin =>
    intro w hw
    obtain ⟨w', hw', rfl⟩ := Option.map_eq_some_iff.mp hw
    exact ⟨by rw [Watch.report_trigger, (h w' hw').1], (h w' hw').2.report hin⟩
  next => exact h.mono fun hbusy => absurd hbusy hno

theorem Conn.Heeded.add (set added : Bool) : (Conn.add k set added c).Heeded k busy := by
  intro w hw
  cases added with
  | false => cases hw
  | true =>
    cases hw
    exact ⟨rfl, fun hr => .inl (decide_eq_true hr)⟩

theorem readable_of_pull {count : Nat} (h : (Conn.pull count c).peer.Readable) :
    c.peer.Readable := by
  rcases h with hdata | hrest
  · refine .inl fun hnil => hdata ?_
    simp [Conn.pull, hnil]
  · exact .inr hrest

theorem Conn.Heeded.pull (h : c.Heeded k busy) (count : Nat) :
    (Conn.pull count c).Heeded k busy :=
  fun w hw => ⟨(h w hw).1, (h w hw).2.mono readable_of_pull id⟩

theorem Conn.Heeded.leave (h : c.Heeded k busy) (hl : k.connected = .edge → ¬c.peer.Readable) :
    c.Heeded k busy' := by
  intro w hw
  obtain ⟨htrigger, hcovers⟩ := h w hw
  exact ⟨htrigger, hcovers.leave fun hedge => hl (htrigger ▸ hedge)⟩

theorem mem_closeFd {fd : Nat} : c ∈ (closeFd fd s).conns ↔ c ∈ s.conns ∧ c.fd ≠ fd := by
  simp [closeFd]

/-- Where the bookkeeping of one descriptor is at its end, the others are as they were. -/
theorem Busy.of_ne {fd fd' : Nat} {pc : Pc} (h : Busy s fd') (hpc : s.pc = .reading fd)
    (hfd : fd' ≠ fd) : Busy { s with pc := pc } fd' := by
  rcases h with hbatch | hreading
  · exact .inl hbatch
  · rw [hpc] at hreading
    cases hreading
    exact absurd rfl hfd

theorem watched_close {fd : Nat} {pc : Pc} (h : Watched k s) (hpc : s.pc = .reading fd) :
    Watched k { closeFd fd s with pc := pc } := by
  intro _ c hc
  obtain ⟨hc, hfd⟩ := mem_closeFd.mp hc
  exact (h (by simp [hpc]) c hc).mono fun hbusy => hbusy.of_ne (s := s) hpc hfd

theorem watched_leave {fd : Nat} (h : Watched k s) (hpc : s.pc = .reading fd)
    (hl : ∀ c ∈ s.conns, c.fd = fd → k.connected = .edge → ¬c.peer.Readable) :
    Watched k { s with pc := .loop } := by
  intro _ c hc
  have hc' := h (by simp [hpc]) c hc
  by_cases hfd : c.fd = fd
  · exact hc'.leave (hl c hc hfd)
  · exact hc'.mono fun hbusy => hbusy.of_ne hpc hfd

theorem watched_data {fd count : Nat} {written : Bool} (hk : Diligent k) (h : Watched k s)
    (hpc : s.pc = .reading fd) : Watched k (read k fd s (.data count written)) := by
  intro hlive c hc
  obtain ⟨c₀, hc₀, rfl⟩ := List.mem_map.mp hc
  have hold := h (by simp [hpc]) c₀ hc₀
  simp only [read] at hlive ⊢
  have habort : ¬(k.checksWrite = true ∧ written = false) := fun hw => hlive (if_pos hw)
  rw [if_neg habort]
  by_cases hloop : k.readLoop = true
  · rw [if_pos hloop]
    have hbusy : ∀ fd', Busy s fd' → Busy
        { update fd (Conn.pull count) (receive fd count s) with pc := .reading fd } fd' := by
      intro fd' hbusy
      exact hbusy.imp id fun hreading => hpc ▸ hreading
    split
    next hfd => exact (hold.mono (hbusy _)).pull count
    next hfd => exact hold.mono (hbusy _)
  · rw [if_neg hloop]
    have hlevel : k.connected = .edge → ¬c₀.peer.Readable := fun hedge =>
      absurd (hk hedge).1 hloop
    split
    next hfd => exact (hold.leave hlevel).pull count
    next hfd => exact hold.leave hlevel

theorem watched_read {fd : Nat} {r : ReadResult} (hk : Diligent k) (hfds : Fds s)
    (h : Watched k s) (hpc : s.pc = .reading fd) (hr : Reads k s fd r) :
    Watched k (read k fd s r) := by
  cases r with
  | data count written => exact watched_data hk h hpc
  | eof => exact watched_close h hpc
  | again =>
    obtain ⟨c, hc, hfd, hno, _⟩ := hr
    simp only [read]
    split
    · exact watched_close h hpc
    · refine watched_leave h hpc fun c' hc' hfd' _ => ?_
      rw [hfds.unique hc' hc (hfd'.trans hfd.symm)]
      exact hno
  | error =>
    simp only [read]
    split
    · exact watched_close h hpc
    next hopen => exact watched_leave h hpc fun _ _ _ hedge => absurd (hk hedge).2 hopen

theorem watched_touch (h : Watched k s) (who : Nat) (f : Peer → Peer) :
    Watched k (touch who f s) := by
  intro hlive c hc
  obtain ⟨c₀, hc₀, rfl⟩ := List.mem_map.mp hc
  rw [touch_fd]
  exact (h hlive c₀ hc₀).touch who f

theorem pc_of_accept {result : Accepted} (hok : ok k s (.accept result)) : s.pc = .accepting := by
  cases result with
  | error => exact hok
  | _ => exact hok.1

theorem watched_wait {events : List Event} (h : Watched k s) (hpc : s.pc = .loop)
    (hbatch : s.batch = []) : Watched k (wait events s) := by
  intro hlive c hc
  obtain ⟨c₀, hc₀, rfl⟩ := List.mem_map.mp hc
  have hidle : ¬Busy s c₀.fd := by simp [Busy, hpc, hbatch]
  refine ((h hlive c₀ hc₀).report events hidle).mono fun hin => .inl ?_
  rw [report_fd]
  exact hin

theorem watched_next {e : Event} {batch : List Event} (h : Watched k s) (hpc : s.pc = .loop)
    (hb : s.batch = e :: batch) : Watched k (turn k { s with batch := batch } e) := by
  -- What is left of the batch, or the event that is taken up now.
  have hbusy : ∀ fd, Busy s fd →
      (∃ error, e = .conn fd error) ∨ ∃ error, Event.conn fd error ∈ batch := by
    intro fd hfd
    obtain ⟨error, hin⟩ := hfd.resolve_right (by simp [hpc])
    rw [hb] at hin
    rcases List.mem_cons.mp hin with heq | hin
    · exact .inl ⟨error, heq.symm⟩
    · exact .inr ⟨error, hin⟩
  cases e with
  | listening =>
    intro _ c hc
    refine (h (by simp [hpc]) c hc).mono fun hfd => .inl ?_
    exact (hbusy _ hfd).resolve_left (by simp)
  | conn fd error =>
    simp only [turn]
    split
    · intro _ c hc
      obtain ⟨hc, hne⟩ := mem_closeFd.mp hc
      refine (h (by simp [hpc]) c hc).mono fun hfd => .inl ?_
      refine (hbusy _ hfd).resolve_left ?_
      rintro ⟨error', heq⟩
      cases heq
      exact hne rfl
    · intro _ c hc
      refine (h (by simp [hpc]) c hc).mono fun hfd => ?_
      rcases hbusy _ hfd with ⟨error', heq⟩ | hin
      · cases heq
        exact .inr rfl
      · exact .inl hin

theorem watched_accept {result : Accepted} (h : Watched k s) (hpc : s.pc = .accepting) :
    Watched k (accept s result) := by
  have hbusy : ∀ pc fd, Busy s fd → Busy { s with pc := pc } fd := fun pc fd hfd =>
    .inl (hfd.resolve_right (by simp [hpc]))
  have hloop : Watched k { s with pc := .loop } := fun _ c hc =>
    (h (by simp [hpc]) c hc).mono (hbusy _ _)
  cases result with
  | again => exact hloop
  | error => exact hloop
  | conn connfd =>
    simp only [accept]
    cases s.queue with
    | nil => exact h
    | cons p queue =>
      intro _ c hc
      rcases List.mem_append.mp hc with hc | hc
      · exact (h (by simp [hpc]) c hc).mono (hbusy _ _)
      · rw [List.mem_singleton.mp hc]
        intro w hw
        cases hw

theorem watched_add {connfd : Nat} {set added : Bool} (h : Watched k s)
    (hpc : s.pc = .adding connfd) : Watched k (add k connfd set added s) := by
  simp only [add]
  split
  · exact fun hlive => absurd rfl hlive
  · intro _ c hc
    obtain ⟨c₀, hc₀, rfl⟩ := List.mem_map.mp hc
    split
    next hfd => exact Conn.Heeded.add set added
    next hfd =>
      refine (h (by simp [hpc]) c₀ hc₀).mono fun hbusy => .inl ?_
      exact hbusy.resolve_right (by simp [hpc])

theorem watched_step {i : Input} (hk : Diligent k) (hfds : Fds s) (h : Watched k s)
    (hok : ok k s i) : Watched k (step k s i) := by
  cases i with
  | connect => exact h
  | send who bs => exact watched_touch h who _
  | shut who => exact watched_touch h who _
  | reset who => exact watched_touch h who _
  | wait events =>
    obtain ⟨hpc, hbatch, _⟩ := hok
    exact watched_wait h hpc hbatch
  | next =>
    obtain ⟨hpc, hbatch⟩ := hok
    simp only [step]
    cases hb : s.batch with
    | nil => exact absurd hb hbatch
    | cons e batch => exact watched_next h hpc hb
  | accept result => exact watched_accept h (pc_of_accept hok)
  | add set added =>
    obtain ⟨connfd, hpc⟩ := hok
    simp only [step, hpc]
    exact watched_add h hpc
  | read result =>
    obtain ⟨fd, hpc, hr⟩ := hok
    simp only [step, hpc]
    exact watched_read hk hfds h hpc hr

end

/-! ## Every byte once -/

/-- What was read from a client, one `read` after the other. -/
def receivedFrom (s : State) (who : Nat) : List UInt8 :=
  (s.received.filter fun p => decide (p.1 = who)).flatMap Prod.snd

/-- What has come from a client is what was read of it and what waits to be read. -/
structure Books (s : State) : Prop where
  whos : ((peers s).map Peer.who).Nodup
  early : ∀ p ∈ peers s, p.who < s.arrived
  late : ∀ who, s.arrived ≤ who → s.sent who = [] ∧ receivedFrom s who = []
  kept : ∀ p ∈ peers s, s.sent p.who = receivedFrom s p.who ++ p.data
  part : ∀ who, receivedFrom s who <+: s.sent who

section
variable {k : Server} {s s' : State}

theorem receivedFrom_congr (h : s'.received = s.received) (who : Nat) :
    receivedFrom s' who = receivedFrom s who := by
  simp only [receivedFrom, h]

/-- A step that reads nothing and lets nothing come, but may close. -/
theorem Books.shrink (h : Books s) (hsub : (peers s').Subperm (peers s))
    (harrived : s'.arrived = s.arrived) (hsent : s'.sent = s.sent)
    (hreceived : s'.received = s.received) : Books s' where
  whos := by
    obtain ⟨l, hperm, hl⟩ := hsub
    exact ((hperm.map Peer.who).nodup_iff).mp (h.whos.sublist (hl.map Peer.who))
  early := fun p hp => harrived ▸ h.early p (hsub.subset hp)
  late := fun who hwho => by
    rw [hsent, receivedFrom_congr hreceived]
    exact h.late who (harrived ▸ hwho)
  kept := fun p hp => by
    rw [hsent, receivedFrom_congr hreceived]
    exact h.kept p (hsub.subset hp)
  part := fun who => by
    rw [hsent, receivedFrom_congr hreceived]
    exact h.part who

theorem Books.same (h : Books s) (hpeers : peers s' = peers s) (harrived : s'.arrived = s.arrived)
    (hsent : s'.sent = s.sent) (hreceived : s'.received = s.received) : Books s' :=
  h.shrink (hpeers ▸ List.Subperm.refl _) harrived hsent hreceived

theorem Books.close (h : Books s) (fd : Nat) {pc : Pc} : Books { closeFd fd s with pc := pc } :=
  h.shrink (List.Sublist.subperm
    ((List.Sublist.refl _).append (List.filter_sublist.map Conn.peer))) rfl rfl rfl

theorem peers_touch (who : Nat) (f : Peer → Peer) :
    peers (touch who f s) = (peers s).map fun p => if p.who = who then f p else p := by
  simp only [peers, touch, List.map_append, List.map_map]
  congr 1
  refine List.map_congr_left fun c _ => ?_
  simp only [Function.comp_apply, Conn.touch]
  split <;> rfl

/-- Something other than bytes comes. -/
theorem Books.touch (h : Books s) (who : Nat) {f : Peer → Peer} (hwho : ∀ p, (f p).who = p.who)
    (hdata : ∀ p, (f p).data = p.data) : Books (touch who f s) := by
  have hmem : ∀ p ∈ peers (TriggerServers.touch who f s),
      ∃ p₀ ∈ peers s, p.who = p₀.who ∧ p.data = p₀.data := by
    intro p hp
    rw [peers_touch] at hp
    obtain ⟨p₀, hp₀, rfl⟩ := List.mem_map.mp hp
    refine ⟨p₀, hp₀, ?_⟩
    split
    · exact ⟨hwho p₀, hdata p₀⟩
    · exact ⟨rfl, rfl⟩
  refine ⟨?_, fun p hp => ?_, h.late, fun p hp => ?_, h.part⟩
  · have hwhos : (peers (TriggerServers.touch who f s)).map Peer.who = (peers s).map Peer.who := by
      rw [peers_touch, List.map_map]
      refine List.map_congr_left fun p _ => ?_
      simp only [Function.comp_apply]
      split
      · exact hwho p
      · rfl
    rw [hwhos]
    exact h.whos
  · obtain ⟨p₀, hp₀, hw, _⟩ := hmem p hp
    exact hw ▸ h.early p₀ hp₀
  · obtain ⟨p₀, hp₀, hw, hd⟩ := hmem p hp
    rw [hw, hd]
    exact h.kept p₀ hp₀

theorem Books.send (h : Books s) {who : Nat} (bs : List UInt8) (halive : Alive s who) :
    Books (step k s (.send who bs)) := by
  obtain ⟨q, hq, hqw, _⟩ := halive
  have hearly : who < s.arrived := hqw ▸ h.early q hq
  have hmem : ∀ p ∈ peers (step k s (.send who bs)), ∃ p₀ ∈ peers s, p.who = p₀.who ∧
      p.data = p₀.data ++ if p₀.who = who then bs else [] := by
    intro p hp
    have hp' : p ∈ peers (TriggerServers.touch who (Peer.deliver bs) s) := hp
    rw [peers_touch] at hp'
    obtain ⟨p₀, hp₀, rfl⟩ := List.mem_map.mp hp'
    refine ⟨p₀, hp₀, ?_⟩
    split
    · exact ⟨rfl, rfl⟩
    · exact ⟨rfl, (List.append_nil _).symm⟩
  have hsent : ∀ w, (step k s (.send who bs)).sent w = s.sent w ++ if w = who then bs else [] := by
    intro w
    by_cases hw : w = who
    · subst hw
      simp [step]
    · simp [step, hw]
  refine ⟨?_, fun p hp => ?_, fun w hw => ?_, fun p hp => ?_, fun w => ?_⟩
  · have hwhos : (peers (step k s (.send who bs))).map Peer.who = (peers s).map Peer.who := by
      show (peers (TriggerServers.touch who (Peer.deliver bs) s)).map Peer.who = _
      rw [peers_touch, List.map_map]
      refine List.map_congr_left fun p _ => ?_
      simp only [Function.comp_apply]
      split <;> rfl
    rw [hwhos]
    exact h.whos
  · obtain ⟨p₀, hp₀, hpw, _⟩ := hmem p hp
    exact hpw ▸ h.early p₀ hp₀
  · have hne : w ≠ who := by
      rintro rfl
      exact Nat.not_le.mpr hearly hw
    rw [hsent, if_neg hne, List.append_nil]
    exact h.late w hw
  · obtain ⟨p₀, hp₀, hpw, hpd⟩ := hmem p hp
    rw [hsent, hpw, hpd, h.kept p₀ hp₀, List.append_assoc]
    rfl
  · rw [hsent]
    exact (h.part w).trans (List.prefix_append _ _)

theorem Books.connect (h : Books s) : Books (connect s) := by
  have hpeers : (peers (TriggerServers.connect s)).Perm
      (⟨s.arrived, [], false, false⟩ :: peers s) := by
    simp only [peers, TriggerServers.connect, List.append_assoc, List.singleton_append]
    exact List.perm_middle
  obtain ⟨hsent, hreceived⟩ := h.late s.arrived (Nat.le_refl _)
  refine ⟨?_, fun p hp => ?_, fun w hw => h.late w (Nat.le_of_succ_le hw), fun p hp => ?_, h.part⟩
  · rw [(hpeers.map Peer.who).nodup_iff, List.map_cons, List.nodup_cons]
    refine ⟨fun hin => ?_, h.whos⟩
    obtain ⟨p, hp, hpw⟩ := List.mem_map.mp hin
    exact Nat.ne_of_lt (h.early p hp) hpw
  · rcases List.mem_cons.mp (hpeers.subset hp) with rfl | hp
    · exact Nat.lt_succ_self _
    · exact Nat.lt_succ_of_lt (h.early p hp)
  · rcases List.mem_cons.mp (hpeers.subset hp) with rfl | hp
    · exact hsent.trans (by rw [List.append_nil]; exact hreceived.symm)
    · exact h.kept p hp

/-- By induction on the list. -/
theorem filter_key {α β : Type} [DecidableEq β] {f : α → β} {l : List α} (h : (l.map f).Nodup)
    {a : α} (ha : a ∈ l) : (l.filter fun x => decide (f x = f a)) = [a] := by
  induction l with
  | nil => cases ha
  | cons b l ih =>
    rw [List.map_cons, List.nodup_cons] at h
    rcases List.mem_cons.mp ha with rfl | ha
    · have hnone : (l.filter fun x => decide (f x = f a)) = [] := by
        refine List.filter_eq_nil_iff.mpr fun x hx => ?_
        rw [decide_eq_true_iff]
        exact fun heq => h.1 (heq ▸ List.mem_map_of_mem hx)
      simp [hnone]
    · have hne : ¬f b = f a := fun heq => h.1 (heq ▸ List.mem_map_of_mem ha)
      simp [hne, ih h.2 ha]

theorem receivedFrom_receive {c : Conn} (hfds : Fds s) (hc : c ∈ s.conns) (count who : Nat) :
    receivedFrom (receive c.fd count s) who =
      receivedFrom s who ++ if c.peer.who = who then c.peer.data.take count else [] := by
  have hfilter := filter_key hfds hc
  simp only [receivedFrom, receive, hfilter, List.map_cons, List.map_nil, List.filter_append,
    List.flatMap_append]
  split
  next hwho => simp [hwho]
  next hwho => simp [hwho]

theorem Books.data (h : Books s) (hfds : Fds s) {c : Conn} (hc : c ∈ s.conns) (count : Nat)
    {pc : Pc} : Books { update c.fd (Conn.pull count) (receive c.fd count s) with pc := pc } := by
  have hreceived := receivedFrom_receive hfds hc count
  have hcs : (s.conns.map fun c => c.peer.who).Nodup := by
    have hwhos := h.whos
    rw [peers, List.map_append, List.map_map] at hwhos
    exact hwhos.of_append_right
  -- The others are other clients' and stay as they are.
  have hmem : ∀ p ∈ s.queue ++ ((update c.fd (Conn.pull count) (receive c.fd count s)).conns.map
      Conn.peer), (p ∈ peers s ∧ c.peer.who ≠ p.who) ∨
        (p.who = c.peer.who ∧ p.data = c.peer.data.drop count) := by
    intro p hp
    rcases List.mem_append.mp hp with hp | hp
    · refine .inl ⟨List.mem_append_left _ hp, fun hwho => ?_⟩
      have hwhos := h.whos
      rw [peers, List.map_append] at hwhos
      refine (List.disjoint_of_nodup_append hwhos) (List.mem_map_of_mem hp) ?_
      rw [← hwho]
      exact List.mem_map_of_mem (List.mem_map_of_mem hc)
    · obtain ⟨c₁, hc₁, rfl⟩ := List.mem_map.mp hp
      obtain ⟨c₀, hc₀, rfl⟩ := List.mem_map.mp hc₁
      by_cases hfd : c₀.fd = c.fd
      · rw [if_pos hfd, hfds.unique hc₀ hc hfd]
        exact .inr ⟨rfl, rfl⟩
      · rw [if_neg hfd]
        refine .inl ⟨List.mem_append_right _ (List.mem_map_of_mem hc₀), fun hwho => hfd ?_⟩
        rw [List.inj_on_of_nodup_map hcs hc hc₀ hwho]
  have hcp : c.peer ∈ peers s := List.mem_append_right _ (List.mem_map_of_mem hc)
  have hkept := h.kept c.peer hcp
  refine ⟨?_, fun p hp => ?_, fun who hwho => ?_, fun p hp => ?_, fun who => ?_⟩
  · have hwhos := h.whos
    simp only [peers, update, receive, List.map_append, List.map_map] at hwhos ⊢
    convert hwhos using 3
    refine funext fun c' => ?_
    simp only [Function.comp_apply]
    split <;> rfl
  · rcases hmem p hp with ⟨hp, _⟩ | ⟨hwho, _⟩
    · exact h.early p hp
    · exact hwho ▸ h.early _ hcp
  · have hne : ¬c.peer.who = who := fun heq => Nat.not_le.mpr (h.early _ hcp) (heq ▸ hwho)
    refine ⟨(h.late who hwho).1, (hreceived who).trans ?_⟩
    rw [if_neg hne, List.append_nil]
    exact (h.late who hwho).2
  · show s.sent p.who = receivedFrom (receive c.fd count s) p.who ++ p.data
    rw [hreceived]
    rcases hmem p hp with ⟨hp, hne⟩ | ⟨hwho, hdata⟩
    · rw [if_neg hne, List.append_nil]
      exact h.kept p hp
    · rw [hwho, if_pos rfl, hdata, List.append_assoc, List.take_append_drop]
      exact hkept
  · show receivedFrom (receive c.fd count s) who <+: s.sent who
    rw [hreceived]
    split
    next hwho =>
      rw [← hwho, hkept]
      exact (List.prefix_append_right_inj _).mpr (List.take_prefix _ _)
    next => simpa using h.part who

theorem Books.read (h : Books s) (hfds : Fds s) {fd : Nat} {r : ReadResult}
    (hr : Reads k s fd r) : Books (read k fd s r) := by
  cases r with
  | data count written =>
    obtain ⟨c, hc, rfl, _⟩ := hr
    exact h.data hfds hc count
  | eof => exact h.close fd
  | again =>
    simp only [TriggerServers.read]
    split
    · exact h.close fd
    · exact h.same rfl rfl rfl rfl
  | error =>
    simp only [TriggerServers.read]
    split
    · exact h.close fd
    · exact h.same rfl rfl rfl rfl

theorem books_step {i : Input} (h : Books s) (hfds : Fds s) (hok : ok k s i) :
    Books (step k s i) := by
  cases i with
  | connect => exact h.connect
  | send who bs => exact h.send bs hok
  | shut who => exact h.touch who (fun _ => rfl) fun _ => rfl
  | reset who => exact h.touch who (fun _ => rfl) fun _ => rfl
  | wait events =>
    refine h.same ?_ rfl rfl rfl
    simp only [step, peers, wait, List.map_map]
    congr 1
    refine List.map_congr_left fun c _ => ?_
    simp only [Function.comp_apply, Conn.report]
    split <;> rfl
  | next =>
    simp only [step]
    cases s.batch with
    | nil => exact h
    | cons e batch =>
      cases e with
      | listening => exact h.same rfl rfl rfl rfl
      | conn fd error =>
        simp only [turn]
        split
        · exact h.shrink (List.Sublist.subperm
            ((List.Sublist.refl _).append (List.filter_sublist.map Conn.peer))) rfl rfl rfl
        · exact h.same rfl rfl rfl rfl
  | accept result =>
    cases result with
    | again => exact h.same rfl rfl rfl rfl
    | error => exact h.same rfl rfl rfl rfl
    | conn connfd =>
      simp only [step, accept]
      cases hq : s.queue with
      | nil => exact h
      | cons p queue =>
        refine h.shrink (List.Perm.subperm ?_) rfl rfl rfl
        simp only [peers, hq, List.map_append, List.map_cons, List.map_nil, List.cons_append]
        rw [← List.append_assoc]
        exact List.perm_append_singleton _ _
  | add set added =>
    obtain ⟨connfd, hpc⟩ := hok
    simp only [step, hpc, add]
    split
    · exact h.same rfl rfl rfl rfl
    · refine h.same ?_ rfl rfl rfl
      simp only [peers, update, List.map_map]
      congr 1
      refine List.map_congr_left fun c _ => ?_
      simp only [Function.comp_apply]
      split <;> rfl
  | read result =>
    obtain ⟨fd, hpc, hr⟩ := hok
    simp only [step, hpc]
    exact h.read hfds hr

end

structure Inv (k : Server) (s : State) : Prop where
  fds : Fds s
  watched : Watched k s
  books : Books s

theorem inv_step {k : Server} (hk : Diligent k) {s : State} {i : Input} (h : Inv k s)
    (hok : ok k s i) : Inv k (step k s i) :=
  ⟨fds_step h.fds hok, watched_step hk h.fds h.watched hok, books_step h.books h.fds hok⟩

theorem start_inv (k : Server) : Inv k (start k) where
  fds := List.nodup_nil
  watched := fun _ _ hc => by cases hc
  books := ⟨List.nodup_nil, fun _ hp => (by cases hp), fun _ _ => ⟨rfl, rfl⟩,
    fun _ hp => (by cases hp), fun _ => List.prefix_rfl⟩

/-- Every registered connection has been read empty and is not at its end, and all that came over
it was read. -/
def AllRead (s : State) : Prop :=
  ∀ c ∈ s.conns, c.watch ≠ none → ¬c.peer.Readable ∧ receivedFrom s c.peer.who = s.sent c.peer.who

theorem Inv.rest {k : Server} {s : State} (h : Inv k s) (hrest : AtRest s) : AllRead s := by
  obtain ⟨hpc, hbatch, hnone⟩ := hrest
  intro c hc hwatch
  obtain ⟨w, hw⟩ := Option.ne_none_iff_exists'.mp hwatch
  have hcovers := (h.watched (by simp [hpc]) c hc w hw).2
  have hread : ¬c.peer.Readable := by
    refine hcovers.quiet (by simp [Busy, hpc, hbatch]) ?_
    rintro ⟨hready, hr⟩
    exact hnone (.conn c.fd c.peer.reset) ⟨c, hc, rfl, hr, ⟨w, hw, hready⟩, rfl⟩
  have hdata : c.peer.data = [] := by
    by_contra hne
    exact hread (.inl hne)
  have hkept := h.books.kept c.peer (List.mem_append_right _ (List.mem_map_of_mem hc))
  rw [hdata, List.append_nil] at hkept
  exact ⟨hread, hkept.symm⟩

/-- In every state of every run of the five servers, what was read from a client is a first part of
what came from it. Whenever `epoll_wait` has nothing to report, it is all that came
over the registered connections: no edge is lost, whatever the clients do between the calls. -/
theorem rest_read {k : Server} (hk : k ∈ servers) (is : List Input)
    (hv : (machine k).Valid (start k) is) :
    (machine k).Always
      (fun s => (∀ who, receivedFrom s who <+: s.sent who) ∧ (AtRest s → AllRead s))
      (start k) is := by
  have hinv := Machine.always_inv (M := machine k) (I := Inv k)
    (fun _ _ h hok => inv_step (servers_diligent k hk) h hok) (start_inv k) hv
  exact hinv.imp fun _ h => ⟨h.books.part, h.rest⟩

/-- A client sends a byte before it is accepted; it is read, and the second read finds no more. -/
def oneByte : List Input :=
  [.connect, .send 0 [104], .wait [.listening], .next, .accept (.conn 5), .add true true,
    .accept .again, .wait [.conn 5 false], .next, .read (.data 1 true), .read .again]

theorem rest_read_oneByte :
    (machine edgeTrigger).Always
      (fun s => (∀ who, receivedFrom s who <+: s.sent who) ∧ (AtRest s → AllRead s))
      (start edgeTrigger) oneByte :=
  rest_read (by simp [servers]) oneByte (by decide)

/-! ## The listening socket -/

/-- The event of the listening socket has still to be come to, or is dealt with. -/
def Attending (s : State) : Prop :=
  Event.listening ∈ s.batch ∨ s.pc = .accepting ∨ ∃ fd, s.pc = .adding fd

/-- Whether the `accept` loop was left, with a connection not accepted or not registered, since the
last client came. -/
def brokenOff (broken : Bool) (_ : State) : Input → Bool
  | .connect => false
  | .accept .error => true
  | .add _ false => true
  | _ => broken

/-- Whoever waits to be accepted is in line to be reported, or was and will be accepted. -/
def Heard (k : Server) (s : State) (broken : Bool) : Prop :=
  s.pc ≠ .aborted → s.listen.trigger = k.listening ∧
    ((k.listening = .edge ∧ broken = true) ∨ s.listen.Covers (s.queue ≠ []) (Attending s))

section
variable {k : Server} {s s' : State} {broken : Bool}

/-- A step that does not touch the listening socket. -/
theorem Heard.same (h : Heard k s broken) (hlisten : s'.listen = s.listen)
    (hqueue : s'.queue ≠ [] → s.queue ≠ []) (hpc : s'.pc ≠ .aborted → s.pc ≠ .aborted)
    (hatt : Attending s → Attending s') : Heard k s' broken := by
  intro hlive
  obtain ⟨htrigger, hcovers⟩ := h (hpc hlive)
  rw [hlisten]
  exact ⟨htrigger, hcovers.imp id fun hc => hc.mono hqueue hatt⟩

/-- The way back to the `for` loop. -/
theorem Heard.leave (h : Heard k s broken) (hlive : s.pc ≠ .aborted)
    (hlisten : s'.listen = s.listen) (hqueue : s'.queue = s.queue)
    (hl : k.listening = .edge → s.queue = []) : Heard k s' broken := by
  intro _
  obtain ⟨htrigger, hcovers⟩ := h hlive
  rw [hlisten, hqueue]
  refine ⟨htrigger, hcovers.imp id fun hc => hc.leave fun hedge hne => ?_⟩
  exact hne (hl (htrigger ▸ hedge))

theorem Heard.breakOff (h : Heard k s broken) (hlive : s.pc ≠ .aborted)
    (hlisten : s'.listen = s.listen) (hqueue : s'.queue = s.queue) : Heard k s' true := by
  intro _
  obtain ⟨htrigger, hcovers⟩ := h hlive
  rw [hlisten, hqueue]
  refine ⟨htrigger, ?_⟩
  cases hk : k.listening with
  | edge => exact .inl ⟨rfl, rfl⟩
  | level =>
    have hcovers := hcovers.resolve_left (by simp [hk])
    exact .inr (hcovers.leave fun hedge => by simp [htrigger, hk] at hedge)

theorem heard_wait {events : List Event} (h : Heard k s broken) (hpc : s.pc = .loop)
    (hbatch : s.batch = []) : Heard k (wait events s) broken := by
  intro _
  obtain ⟨htrigger, hcovers⟩ := h (by simp [hpc])
  have hidle : ¬Attending s := by simp [Attending, hpc, hbatch]
  simp only [wait]
  split
  next hin =>
    refine ⟨by rw [Watch.report_trigger, htrigger], hcovers.imp id fun hc => ?_⟩
    exact hc.report (.inl hin)
  next => exact ⟨htrigger, hcovers.imp id fun hc => hc.mono id fun ha => absurd ha hidle⟩

theorem heard_next {e : Event} {batch : List Event} (h : Heard k s broken) (hpc : s.pc = .loop)
    (hb : s.batch = e :: batch) : Heard k (turn k { s with batch := batch } e) broken := by
  cases e with
  | listening => exact h.same rfl id (by simp [hpc]) fun _ => .inr (.inl rfl)
  | conn fd error =>
    have hrest : Attending s → Event.listening ∈ batch := fun ha =>
      (List.mem_cons.mp (hb ▸ ha.resolve_right (by simp [hpc]))).resolve_left (by simp)
    simp only [turn]
    split
    · exact h.same rfl id (by simp [hpc]) fun ha => .inl (hrest ha)
    · exact h.same rfl id (by simp [hpc]) fun ha => .inl (hrest ha)

theorem heard_accept {result : Accepted} (h : Heard k s broken) (hok : ok k s (.accept result)) :
    Heard k (accept s result) (brokenOff broken s (.accept result)) := by
  cases result with
  | again =>
    obtain ⟨hpc, hqueue, _⟩ := hok
    exact h.leave (by simp [hpc]) rfl rfl fun _ => hqueue
  | error => exact h.breakOff (by simp [show s.pc = .accepting from hok]) rfl rfl
  | conn connfd =>
    obtain ⟨hpc, hqueue, _⟩ := hok
    simp only [accept, brokenOff]
    cases hq : s.queue with
    | nil => exact absurd hq hqueue
    | cons p queue =>
      exact h.same rfl (fun _ => hqueue) (by simp [hpc]) fun _ => .inr (.inr ⟨connfd, rfl⟩)

theorem heard_add {connfd : Nat} {set added : Bool}
    (hk : k.listening = .edge → k.acceptLoop = true) (h : Heard k s broken)
    (hpc : s.pc = .adding connfd) :
    Heard k (add k connfd set added s) (brokenOff broken s (.add set added)) := by
  simp only [add]
  split
  · exact fun hlive => absurd rfl hlive
  · cases added with
    | false => exact h.breakOff (by simp [hpc]) rfl rfl
    | true =>
      by_cases hloop : k.acceptLoop = true
      · exact h.same rfl id (by simp [hpc]) fun _ => .inr (.inl (by simp [hloop]))
      · exact h.leave (by simp [hpc]) rfl rfl fun hedge => absurd (hk hedge) hloop

theorem heard_read {fd : Nat} {r : ReadResult} (h : Heard k s broken) (hpc : s.pc = .reading fd) :
    Heard k (read k fd s r) broken := by
  have hatt : Attending s → Event.listening ∈ s.batch := fun ha =>
    ha.resolve_right (by simp [hpc])
  have hsame : ∀ s' : State, s'.listen = s.listen → s'.queue = s.queue → s'.batch = s.batch →
      Heard k s' broken := fun s' hlisten hqueue hbatch =>
    h.same hlisten (hqueue ▸ id) (by simp [hpc]) fun ha => .inl (hbatch ▸ hatt ha)
  cases r with
  | data count written => exact hsame _ rfl rfl rfl
  | eof => exact hsame _ rfl rfl rfl
  | again =>
    simp only [read]
    split <;> exact hsame _ rfl rfl rfl
  | error =>
    simp only [read]
    split <;> exact hsame _ rfl rfl rfl

theorem heard_step {i : Input} (hk : k.listening = .edge → k.acceptLoop = true)
    (h : Heard k s broken) (hok : ok k s i) : Heard k (step k s i) (brokenOff broken s i) := by
  have htouch : ∀ who f, Heard k (touch who f s) broken := fun who f =>
    h.same rfl (fun hne hnil => hne (by simp [touch, hnil])) id id
  cases i with
  | connect =>
    intro hlive
    exact ⟨(h hlive).1, .inr Watch.signal_covers⟩
  | send who bs => exact htouch who _
  | shut who => exact htouch who _
  | reset who => exact htouch who _
  | wait events =>
    obtain ⟨hpc, hbatch, _⟩ := hok
    exact heard_wait h hpc hbatch
  | next =>
    obtain ⟨hpc, hbatch⟩ := hok
    simp only [step]
    cases hb : s.batch with
    | nil => exact absurd hb hbatch
    | cons e batch => exact heard_next h hpc hb
  | accept result => exact heard_accept h hok
  | add set added =>
    obtain ⟨connfd, hpc⟩ := hok
    simp only [step, hpc]
    exact heard_add hk h hpc
  | read result =>
    obtain ⟨fd, hpc, _⟩ := hok
    simp only [step, hpc]
    exact heard_read h hpc

end

/-- Whenever `epoll_wait` has nothing to report, nobody waits to be accepted, unless the edge of the
last arrival was used up by a loop that was broken off. With a level-triggered listening socket
nobody ever waits then. -/
theorem rest_queue {k : Server} (hk : k.listening = .edge → k.acceptLoop = true) (is : List Input)
    (hv : (machine k).Valid (start k) is) (hrest : AtRest ((machine k).run (start k) is)) :
    ((machine k).run (start k) is).queue = [] ∨
      (k.listening = .edge ∧ (machine k).tally brokenOff (start k) false is = true) := by
  have hstart : Heard k (start k) false := fun _ => ⟨rfl, .inr fun hne => absurd rfl hne⟩
  have h := Machine.run_tally (M := machine k) (f := brokenOff) (I := Heard k)
    (fun _ _ _ h hok => heard_step hk h hok) hstart hv
  obtain ⟨hpc, hbatch, hnone⟩ := hrest
  obtain ⟨_, hcovers⟩ := h (by simp [hpc])
  rcases hcovers with hbroken | hcovers
  · exact .inr hbroken
  · refine .inl (by_contra fun hne => ?_)
    exact hcovers.quiet (by simp [Attending, hpc, hbatch]) (hnone .listening) hne

/-- Out of descriptors: the client that came waits on. -/
theorem rest_queue_emfile :
    ((machine edgeTrigger).run (start edgeTrigger)
        [.connect, .wait [.listening], .next, .accept .error]).queue = [] ∨
      (edgeTrigger.listening = .edge ∧ (machine edgeTrigger).tally brokenOff (start edgeTrigger)
        false [.connect, .wait [.listening], .next, .accept .error] = true) :=
  rest_queue (fun _ => rfl) _ (by decide) (by decide)

/-! ## One `accept` for an edge -/

/-- The `accept` to be made next, if any. -/
def Pc.turns : Pc → Nat
  | .accepting => 1
  | .loop | .adding _ | .reading _ | .aborted => 0

@[simp] theorem turns_loop : Pc.turns .loop = 0 := rfl
@[simp] theorem turns_accepting : Pc.turns .accepting = 1 := rfl
@[simp] theorem turns_adding (fd : Nat) : Pc.turns (.adding fd) = 0 := rfl
@[simp] theorem turns_reading (fd : Nat) : Pc.turns (.reading fd) = 0 := rfl
@[simp] theorem turns_aborted : Pc.turns .aborted = 0 := rfl

/-- The turns the listening socket has still to get: in line, in the batch, and under way. -/
def turns (s : State) : Nat :=
  s.listen.ready.toNat + s.batch.count .listening + s.pc.turns

/-- How many came while the last edge was still to be reported, or had their `accept` fail. -/
def missed (n : Nat) (s : State) : Input → Nat
  | .connect => if s.listen.ready = true then n + 1 else n
  | .accept .error => n + 1
  | _ => n

/-- Each turn is good for one of those who wait; for the missed ones there is none. -/
def Owed (k : Server) (s : State) (n : Nat) : Prop :=
  s.listen.trigger = k.listening ∧ s.queue.length = n + turns s

section
variable {k : Server} {s s' : State} {n : Nat}

theorem Owed.same (h : Owed k s n) (hlisten : s'.listen = s.listen)
    (hqueue : s'.queue.length = s.queue.length)
    (hcount : s'.batch.count .listening = s.batch.count .listening)
    (hpc : s'.pc.turns = s.pc.turns) : Owed k s' n := by
  refine ⟨hlisten ▸ h.1, ?_⟩
  rw [hqueue, h.2]
  simp only [turns, hlisten, hcount, hpc]

theorem owed_connect (h : Owed k s n) : Owed k (connect s) (missed n s .connect) := by
  obtain ⟨htrigger, hlen⟩ := h
  refine ⟨htrigger, ?_⟩
  simp only [connect, missed, List.length_append, List.length_singleton, hlen, turns,
    Watch.signal_ready, Bool.toNat_true]
  cases hready : s.listen.ready with
  | true =>
    simp only [Bool.toNat_true, if_true]
    omega
  | false =>
    simp only [Bool.toNat_false, Bool.false_eq_true, if_false]
    omega

theorem owed_wait {events : List Event} (hedge : k.listening = .edge) (h : Owed k s n)
    (hok : ok k s (.wait events)) : Owed k (wait events s) (missed n s (.wait events)) := by
  obtain ⟨htrigger, hlen⟩ := h
  obtain ⟨hpc, hbatch, _, _, hnodup, hall⟩ := hok
  simp only [turns, hpc, hbatch, List.count_nil, turns_loop] at hlen
  simp only [wait, missed]
  split
  next hin =>
    refine ⟨by rw [Watch.report_trigger, htrigger], ?_⟩
    simp only [turns, hpc, Watch.report_edge (htrigger.trans hedge), (hall _ hin).1,
      List.count_eq_one_of_mem hnodup hin, turns_loop, Bool.toNat_false,
      Bool.toNat_true] at hlen ⊢
    omega
  next hout =>
    refine ⟨htrigger, ?_⟩
    simp only [turns, hpc, List.count_eq_zero_of_not_mem hout, turns_loop]
    omega

theorem owed_next {e : Event} {batch : List Event} (h : Owed k s n) (hpc : s.pc = .loop)
    (hb : s.batch = e :: batch) : Owed k (turn k { s with batch := batch } e) n := by
  obtain ⟨htrigger, hlen⟩ := id h
  cases e with
  | listening =>
    refine ⟨htrigger, ?_⟩
    simp only [turns, hpc, hb, List.count_cons_self, turns_loop, turns_accepting,
      turn] at hlen ⊢
    omega
  | conn fd error =>
    have hcount : batch.count .listening = s.batch.count .listening := by
      rw [hb, List.count_cons_of_ne (by simp)]
    simp only [turn]
    split
    · exact h.same rfl rfl hcount rfl
    · exact h.same rfl rfl hcount (by simp [hpc])

theorem owed_accept {result : Accepted} (h : Owed k s n) (hok : ok k s (.accept result)) :
    Owed k (accept s result) (missed n s (.accept result)) := by
  obtain ⟨htrigger, hlen⟩ := h
  cases result with
  | again =>
    -- A turn under way is good for somebody: the queue is not empty.
    obtain ⟨hpc, hqueue, _⟩ := hok
    simp only [turns, hpc, hqueue, List.length_nil, turns_accepting] at hlen
    omega
  | error =>
    have hpc : s.pc = .accepting := hok
    refine ⟨htrigger, ?_⟩
    simp only [turns, hpc, turns_accepting, turns_loop, accept, missed] at hlen ⊢
    omega
  | conn connfd =>
    obtain ⟨hpc, hqueue, _⟩ := hok
    simp only [accept, missed]
    cases hq : s.queue with
    | nil => exact absurd hq hqueue
    | cons p queue =>
      refine ⟨htrigger, ?_⟩
      simp only [turns, hpc, hq, List.length_cons, turns_accepting, turns_adding] at hlen ⊢
      omega

theorem owed_read {fd : Nat} (h : Owed k s n) (hpc : s.pc = .reading fd) (result : ReadResult) :
    Owed k (read k fd s result) n := by
  cases result with
  | data count written =>
    refine h.same rfl rfl rfl ?_
    simp only [read, hpc]
    split
    · rfl
    · split <;> rfl
  | eof =>
    refine h.same rfl rfl rfl ?_
    simp only [read, hpc]
    split <;> rfl
  | again =>
    simp only [read]
    split <;> exact h.same rfl rfl rfl (by simp [hpc])
  | error =>
    simp only [read]
    split <;> exact h.same rfl rfl rfl (by simp [hpc])

theorem owed_step {i : Input} (hedge : k.listening = .edge) (hone : k.acceptLoop = false)
    (h : Owed k s n) (hok : ok k s i) : Owed k (step k s i) (missed n s i) := by
  have htouch : ∀ who f, Owed k (touch who f s) n := fun who f =>
    h.same rfl (List.length_map _) rfl rfl
  cases i with
  | connect => exact owed_connect h
  | send who bs => exact htouch who _
  | shut who => exact htouch who _
  | reset who => exact htouch who _
  | wait events => exact owed_wait hedge h hok
  | next =>
    obtain ⟨hpc, hbatch⟩ := hok
    simp only [step, missed]
    cases hb : s.batch with
    | nil => exact absurd hb hbatch
    | cons e batch => exact owed_next h hpc hb
  | accept result => exact owed_accept h hok
  | add set added =>
    obtain ⟨connfd, hpc⟩ := hok
    simp only [step, hpc, add, missed]
    split
    · exact h.same rfl rfl rfl (by simp [hpc])
    · exact h.same rfl rfl rfl (by simp [hpc, hone])
  | read result =>
    obtain ⟨fd, hpc, _⟩ := hok
    simp only [step, hpc, missed]
    exact owed_read h hpc result

end

/-- `lt` and `et` accept one connection for an edge. Whenever `epoll_wait` has nothing to report,
exactly as many wait to be accepted as came while an edge was still to be reported, or had their
`accept` fail: once missed, never caught up with. -/
theorem rest_missed {k : Server} (hk : k ∈ [lt, et]) (is : List Input)
    (hv : (machine k).Valid (start k) is) (hrest : AtRest ((machine k).run (start k) is)) :
    ((machine k).run (start k) is).queue.length = (machine k).tally missed (start k) 0 is := by
  have hedge : ∀ k ∈ [lt, et], k.listening = .edge ∧ k.acceptLoop = false := by decide
  obtain ⟨hedge, hone⟩ := hedge k hk
  have h := Machine.run_tally (M := machine k) (f := missed) (I := Owed k)
    (fun _ _ _ h hok => owed_step hedge hone h hok)
    (show Owed k (start k) 0 from ⟨rfl, rfl⟩) hv
  obtain ⟨hpc, hbatch, hnone⟩ := hrest
  generalize (machine k).run (start k) is = s at *
  have hlen := h.2
  simp only [turns, hpc, hbatch, List.count_nil, turns_loop] at hlen
  cases hready : s.listen.ready with
  | false => simpa [hready] using hlen
  | true =>
    have hempty : s.queue = [] := by
      by_contra hne
      exact hnone .listening ⟨hready, hne⟩
    simp only [hempty, hready, List.length_nil, Bool.toNat_true] at hlen
    omega

/-- Two clients, one edge: the second waits on. -/
def twoClients : List Input :=
  [.connect, .connect, .wait [.listening], .next, .accept (.conn 5), .add true true]

theorem rest_missed_twoClients :
    ((machine lt).run (start lt) twoClients).queue.length =
      (machine lt).tally missed (start lt) 0 twoClients :=
  rest_missed (by simp) twoClients (by decide) (by decide)

end TriggerServers
end Unpvol1
