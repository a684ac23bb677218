import Unpvol1.Springsnail.Mgr

/-!
# Springsnail.Child

A springsnail child process: the event loop `processpool::run_child` around one `Mgr`.

The state says where the loop stands: `batch` is what is left of the events of the last
`epoll_wait`, and the loop is at its next `epoll_wait` just when `batch` is empty. An input is
either the result of that wait or the kernel's answers to the calls made while the next event of
the batch is handled. `child` is the machine; its `ok` says what the kernel may answer:

* `epoll_wait` reports each descriptor at most once, only descriptors registered when it returns,
  and only events of their registered masks;
* `accept` and `socket` return fresh descriptors, so a descriptor closed earlier in a batch may come
  back while its old event is still in that batch.
-/

namespace Unpvol1
namespace Springsnail

structure Event where
  fd : Int
  input : Bool
  output : Bool
  deriving DecidableEq, Repr

/-- What `epoll_wait` returns; a timeout comes with the outcome of `conn2srv` for each entry of
`m_freed`, which `recycle_conns` tries in turn. -/
inductive WaitResult where
  | failed
  | interrupted
  | timeout (reconnects : List (Option Int))
  | ready (events : List Event)

/-- The kernel's answers while one event is handled. -/
structure Env where
  pipe : RecvOutcome
  accept : Option Int
  signals : RecvOutcome
  io : Io

inductive Input where
  | wait (r : WaitResult)
  | next (env : Env)

structure Child where
  mgr : Mgr
  /-- `m_stop`, or the loop was left by `break`. -/
  stop : Bool
  batch : List Event
  /-- The counts reported to the parent so far. -/
  reports : List Nat

namespace Mgr

/-- What `run_child` does with a connection `connfd` that `accept` just returned. The result says
whether it was bound. -/
def takeClient (connfd : Int) (m : Mgr) : Bool × Mgr :=
  let m := { m with ker := m.ker.openFd connfd }
  match (m.addReadFd connfd).pickConn connfd with
  | (none, m) => (false, m.closefd connfd)
  | (some conn, m) => (true, m.setConn conn ((m.heap conn).initClt connfd))

/-- The outcomes of one `recycle_conns`: one for each entry of `m_freed`, with fresh descriptors. -/
def ReconnectsOk (m : Mgr) (os : List (Option Int)) : Prop :=
  os.length = m.freed.size ∧ (∀ o ∈ os, ∀ fd ∈ o, m.ker.Fresh fd) ∧
    os.Pairwise (fun a b => a = none ∨ a ≠ b)

instance (m : Mgr) (os : List (Option Int)) : Decidable (m.ReconnectsOk os) := by
  unfold ReconnectsOk; infer_instance

end Mgr

namespace Child

/-- A freshly started child. -/
def start (m : Mgr) : Child := ⟨m, false, [], []⟩

/-- `notify_parent_busy_ratio`. -/
def notify (s : Child) : Child := { s with reports := s.reports ++ [s.mgr.getUsedConnCnt] }

/-- The branch of `run_child` for an announcement on the pipe. -/
def acceptClient (env : Env) (s : Child) : Child :=
  match env.accept with
  | none => s
  | some connfd =>
    match s.mgr.takeClient connfd with
    | (false, m) => { s with mgr := m }
    | (true, m) => { s with mgr := m }.notify

/-- The branch of `run_child` for pending signals; only `SIGINT` (2) and `SIGTERM` (15) change the
loop. -/
def handleSignals (sigs : List UInt8) (s : Child) : Child :=
  if sigs.any (fun b => b = 2 ∨ b = 15) then { s with stop := true } else s

/-- The branches of `run_child` that hand a descriptor to the manager. -/
def dispatch (fd : Int) (type : OpType) (io : Io) (s : Child) : Child :=
  match s.mgr.process fd type io with
  | (.closed, m) => { s with mgr := m }.notify
  | (_, m) => { s with mgr := m }

end Child

/-- The two descriptors of the child that are not connections: its end of the pipe to the parent
and the read end of its signal pipe. -/
structure Pipes where
  pipefdRead : Int
  sigPipefd : Int

/-- The operation `run_child` hands to `process` for an event, if any. -/
def Event.opType (p : Pipes) (ev : Event) : Option OpType :=
  if (ev.fd = p.pipefdRead ∨ ev.fd = p.sigPipefd) ∧ ev.input = true then none
  else if ev.input = true then some .read
  else if ev.output = true then some .write
  else none

namespace Child

/-- One round of the `for` loop of `run_child`. -/
def handle (p : Pipes) (ev : Event) (env : Env) (s : Child) : Child :=
  if ev.fd = p.pipefdRead ∧ ev.input = true then
    match recv 4 env.pipe with
    | .err .again => s.acceptClient env
    | .err _ => s
    | .got [] => s
    | .got (_ :: _) => s.acceptClient env
  else if ev.fd = p.sigPipefd ∧ ev.input = true then
    match recv 1024 env.signals with
    | .err _ => s
    | .got sigs => s.handleSignals sigs
  else if ev.input = true then s.dispatch ev.fd .read env.io
  else if ev.output = true then s.dispatch ev.fd .write env.io
  else s

def step (p : Pipes) (s : Child) : Input → Child
  | .wait .failed => { s with stop := true }
  | .wait .interrupted => s
  | .wait (.timeout os) => { s with mgr := s.mgr.recycleConns os }
  | .wait (.ready evs) => { s with batch := evs }
  | .next env =>
    match s.batch with
    | [] => s
    | ev :: rest => { s with batch := rest }.handle p ev env

/-- An event `epoll_wait` may report. -/
def Deliverable (k : Kernel Interest) (ev : Event) : Prop :=
  ∃ i ∈ k.interest ev.fd, (ev.input = true → i.input = true) ∧
    (ev.output = true → i.output = true)

instance (k : Kernel Interest) (ev : Event) : Decidable (Deliverable k ev) := by
  unfold Deliverable; infer_instance

def InputOk (s : Child) : Input → Prop
  | .wait r => s.batch = [] ∧ s.stop = false ∧
    match r with
    | .failed => True
    | .interrupted => True
    | .timeout os => s.mgr.ReconnectsOk os
    | .ready evs => (evs.map Event.fd).Nodup ∧ ∀ ev ∈ evs, Deliverable s.mgr.ker ev
  | .next env => s.batch ≠ [] ∧ ∀ fd ∈ env.accept, s.mgr.ker.Fresh fd

instance (s : Child) : (i : Input) → Decidable (InputOk s i)
  | .wait .failed => inferInstanceAs (Decidable (_ ∧ _ ∧ True))
  | .wait .interrupted => inferInstanceAs (Decidable (_ ∧ _ ∧ True))
  | .wait (.timeout os) => inferInstanceAs (Decidable (_ ∧ _ ∧ s.mgr.ReconnectsOk os))
  | .wait (.ready evs) => inferInstanceAs (Decidable (_ ∧ _ ∧ (evs.map Event.fd).Nodup ∧ _))
  | .next env => inferInstanceAs (Decidable (_ ∧ ∀ fd ∈ env.accept, s.mgr.ker.Fresh fd))

/-- The call of `process` the next step makes, if it makes one. -/
def hands (p : Pipes) (s : Child) : Input → Option (Int × OpType × Io)
  | .wait _ => none
  | .next env =>
    match s.batch with
    | [] => none
    | ev :: _ => (ev.opType p).map fun type => (ev.fd, type, env.io)

end Child

def child (p : Pipes) : Machine Child Input where
  step := Child.step p
  ok := Child.InputOk

instance (p : Pipes) (s : Child) (i : Input) : Decidable ((child p).ok s i) :=
  inferInstanceAs (Decidable (Child.InputOk s i))

/-! ## What a step can do -/

namespace Child

variable {p : Pipes} {s : Child}

/-- Handling an event is one of: take a client, hand a descriptor to the manager, or leave the
manager alone. -/
theorem handle_cases (p : Pipes) (ev : Event) (env : Env) (s : Child) :
    (∃ connfd, env.accept = some connfd ∧ ev.opType p = none ∧
      (s.handle p ev env).mgr = (s.mgr.takeClient connfd).2) ∨
    (∃ type, ev.opType p = some type ∧ type ≠ .error ∧
      (s.handle p ev env).mgr = (s.mgr.process ev.fd type env.io).2) ∨
    (ev.opType p = none ∧ (s.handle p ev env).mgr = s.mgr) := by
  have haccept : (∃ connfd, env.accept = some connfd ∧
      (s.acceptClient env).mgr = (s.mgr.takeClient connfd).2) ∨
      (s.acceptClient env).mgr = s.mgr := by
    unfold acceptClient
    split
    · exact .inr rfl
    · rename_i connfd hacc
      refine .inl ⟨connfd, hacc, ?_⟩
      split <;> rename_i m hm <;> simp [hm, notify]
  have hdispatch : ∀ type, (s.dispatch ev.fd type env.io).mgr =
      (s.mgr.process ev.fd type env.io).2 := by
    intro type
    unfold dispatch
    split <;> rename_i hm <;> simp [hm, notify]
  unfold handle Event.opType
  cases hin : ev.input with
  | false =>
    cases hout : ev.output with
    | false => exact .inr (.inr ⟨by simp, by simp⟩)
    | true => exact .inr (.inl ⟨.write, by simp, by simp, by simp [hdispatch]⟩)
  | true =>
    by_cases hpipe : ev.fd = p.pipefdRead
    · simp only [hpipe, and_self, if_true, true_or, true_and]
      split
      · rcases haccept with ⟨fd, h1, h2⟩ | h
        · exact .inl ⟨fd, h1, h2⟩
        · exact .inr (.inr h)
      · exact .inr (.inr rfl)
      · exact .inr (.inr rfl)
      · rcases haccept with ⟨fd, h1, h2⟩ | h
        · exact .inl ⟨fd, h1, h2⟩
        · exact .inr (.inr h)
    · by_cases hsig : ev.fd = p.sigPipefd
      · refine .inr (.inr ⟨by simp [hsig], ?_⟩)
        rw [if_neg (by simp [hpipe]), if_pos (by simp [hsig])]
        split
        · rfl
        · unfold handleSignals; split <;> rfl
      · refine .inr (.inl ⟨.read, by simp [hpipe, hsig], by simp, ?_⟩)
        simpa [hpipe, hsig] using hdispatch .read

end Child

/-! ## A small child to run -/

/-- A child with its pipe on descriptor 3 and its signal pipe on 4, both registered. -/
def pipes34 : Pipes := ⟨3, 4⟩

def kernel34 : Kernel Interest where
  opened fd := decide (0 ≤ fd ∧ fd ≤ 4)
  interest fd := if fd = 3 ∨ fd = 4 then some epollin else none
  log _ := .empty

def noIo : Io := ⟨[], []⟩

/-- The announcement of a client on the pipe. -/
def announced : Event := ⟨3, true, false⟩

def readable (fd : Int) : Event := ⟨fd, true, false⟩

def writable (fd : Int) : Event := ⟨fd, false, true⟩

/-- The environment in which `accept` returns `fd`. -/
def accepting (fd : Int) : Env := ⟨.data [1, 0, 0, 0], some fd, .fail .again, noIo⟩

/-- The environment of a descriptor handed to `process`. -/
def transferring (recvs : List RecvOutcome) (sends : List SendOutcome) : Env :=
  ⟨.fail .again, none, .fail .again, ⟨recvs, sends⟩⟩

end Springsnail
end Unpvol1
