import Mathlib.Logic.Function.Basic
import Mathlib.Data.List.Nodup
import Mathlib.Data.List.Perm.Basic
import Mathlib.Data.List.TakeDrop
import Unpvol1.Lib.Bulletin
import Unpvol1.Lib.Machine

/-!
# ShmTalk.ShmChat

Messages in the shared-memory chat server (`13-4shm_talk_server.cpp`) while its clients stay. A
child copies a message of its client into its own segment and sends its index to the parent, the
parent sends the index to the other children, and each of them sends the whole segment to its
client. All descriptors are edge-triggered: one event stands for all data since the last report.

* `clear`, `recv`, `announce` — `run_child` on an event of `connfd`.
* `receive`, `deliver`        — `run_child` on an event of `pipefd`.
* `take`, `tell`              — the parent on an event of a child's pipe.
* `delivered_of_careful`      — what each child sends while no step is careless.
-/

namespace Unpvol1
namespace ShmChat

def BUFFER_SIZE : Nat := 1024

/-- A segment of `share_mem`. -/
abbrev Segment := { bytes : List UInt8 // bytes.length = BUFFER_SIZE }

/-- The segment after `memset` and a `recv` of `bytes`. -/
def record (bytes : List UInt8) : Segment := ⟨bytes.takeD BUFFER_SIZE 0, List.takeD_length ..⟩

/-- The descriptor of an event in a child: `connfd` or `pipefd`. -/
inductive Source where
  | conn
  | pipe
deriving DecidableEq

/-- Where a child is: between two events, after the `memset`, after the `recv` from its client, or
after the `recv` of the index `client` from the parent. -/
inductive Pc where
  | next
  | cleared
  | copied
  | told (client : Nat)
deriving DecidableEq

/-- A child. `inbox` is what its client has sent and it has not received, `batch` the events it has
still to handle. `up` and `down` are the indices in the pipe to the parent and back. An event of
`connfd`, of the parent's end or of the child's end of the pipe is set until it is reported.
`sent` are the records sent to the client. -/
structure Child where
  inbox : List UInt8
  connEvent : Bool
  batch : List Source
  pc : Pc
  segment : Segment
  up : List Nat
  upEvent : Bool
  down : List Nat
  pipeEvent : Bool
  sent : List (List UInt8)

/-- `users` are the children in the order of the table, each under the index it was started with.
`batch` are the pipes the parent has still to handle. In the broadcast loop `client` is the index
received (`child` in the source), `sockfd` the pipe it came from and `rest` the part of the table
still to come. `announced` are the messages announced to the parent, with their senders. -/
structure State where
  users : List Nat
  child : Nat → Child
  batch : List Nat
  client : Nat
  sockfd : Nat
  rest : List Nat
  announced : List (Nat × List UInt8)

inductive Step where
  | clientSend (i : Nat) (bytes : List UInt8)
  /-- `epoll_wait` of child `i` reports its events in the order `batch`. -/
  | wait (i : Nat) (batch : List Source)
  | clear (i : Nat)
  /-- `recv` from the client gives `n` bytes, or EAGAIN when `n` is 0. -/
  | recv (i n : Nat)
  /-- `send` of the index, which may fail. -/
  | announce (i : Nat) (sent : Bool)
  | receive (i : Nat)
  /-- `send` to the client takes `n` bytes of the segment, none when it fails. -/
  | deliver (i n : Nat)
  | parentWait (batch : List Nat)
  | take
  /-- One pass through the broadcast loop; `send` may fail. -/
  | tell (sent : Bool)
deriving DecidableEq

def State.setChild (s : State) (i : Nat) (c : Child) : State :=
  { s with child := Function.update s.child i c }

def wait (i : Nat) (batch : List Source) (s : State) : State :=
  s.setChild i { s.child i with batch := batch, connEvent := false, pipeEvent := false }

def clear (i : Nat) (s : State) : State :=
  s.setChild i
    { s.child i with batch := (s.child i).batch.tail, pc := .cleared, segment := record [] }

def recv (i n : Nat) (s : State) : State :=
  if n = 0 then s.setChild i { s.child i with pc := .next }
  else
    s.setChild i
      { s.child i with
        inbox := (s.child i).inbox.drop n
        segment := record ((s.child i).inbox.take n)
        pc := .copied }

def announce (i : Nat) (sent : Bool) (s : State) : State :=
  if sent = false then s.setChild i { s.child i with pc := .next }
  else
    { s.setChild i
        { s.child i with pc := .next, up := (s.child i).up ++ [i], upEvent := true } with
      announced := s.announced ++ [(i, (s.child i).segment.1)] }

/-- One index is received; a pipe found empty is EAGAIN. -/
def receive (i : Nat) (s : State) : State :=
  match (s.child i).down with
  | [] => s.setChild i { s.child i with batch := (s.child i).batch.tail }
  | client :: down =>
    s.setChild i
      { s.child i with batch := (s.child i).batch.tail, down := down, pc := .told client }

def deliver (i n : Nat) (s : State) : State :=
  match (s.child i).pc with
  | .told client =>
    s.setChild i
      { s.child i with
        pc := .next
        sent := (s.child i).sent ++
          if n = 0 then [] else [(s.child client).segment.1.take n] }
  | _ => s

def parentWait (batch : List Nat) (s : State) : State :=
  { s with batch := batch, child := fun i => { s.child i with upEvent := false } }

/-- One index is received from the next pipe; a pipe found empty is EAGAIN. -/
def take (s : State) : State :=
  match s.batch with
  | [] => s
  | i :: batch =>
    match (s.child i).up with
    | [] => { s with batch := batch }
    | client :: up =>
      { s.setChild i { s.child i with up := up } with
        batch := batch
        client := client
        sockfd := i
        rest := s.users }

/-- The result of `send` is not looked at. -/
def tell (sent : Bool) (s : State) : State :=
  match s.rest with
  | [] => s
  | j :: rest =>
    if j = s.sockfd ∨ sent = false then { s with rest := rest }
    else
      { s.setChild j
          { s.child j with down := (s.child j).down ++ [s.client], pipeEvent := true } with
        rest := rest }

def step (s : State) : Step → State
  | .clientSend i bytes =>
    s.setChild i { s.child i with inbox := (s.child i).inbox ++ bytes, connEvent := true }
  | .wait i batch => wait i batch s
  | .clear i => clear i s
  | .recv i n => recv i n s
  | .announce i sent => announce i sent s
  | .receive i => receive i s
  | .deliver i n => deliver i n s
  | .parentWait batch => parentWait batch s
  | .take => take s
  | .tell sent => tell sent s

/-- The events of a child that are set. -/
def Child.ready (c : Child) : List Source :=
  (if c.connEvent then [.conn] else []) ++ if c.pipeEvent then [.pipe] else []

/-- What `epoll_wait` of a child can report: the events that are set, but that of `connfd` may be
missing when an earlier `recv` has taken all data. From a pipe one index is taken for each event, so
it is not empty while its event is set. -/
def Child.reports (c : Child) (batch : List Source) : Bool :=
  batch.Perm c.ready ∨ c.inbox = [] ∧ batch.Perm (c.ready.erase .conn)

def Pc.isTold : Pc → Bool
  | .told _ => true
  | _ => false

def enabled (s : State) : Step → Bool
  | .clientSend i _ => i ∈ s.users
  | .wait i batch => i ∈ s.users ∧ (s.child i).pc = .next ∧ (s.child i).batch = [] ∧
      (s.child i).reports batch
  | .clear i => i ∈ s.users ∧ (s.child i).pc = .next ∧ (s.child i).batch.head? = some .conn
  | .recv i n => i ∈ s.users ∧ (s.child i).pc = .cleared ∧ n ≤ BUFFER_SIZE - 1 ∧
      n ≤ (s.child i).inbox.length ∧ (n = 0 → (s.child i).inbox = [])
  | .announce i _ => i ∈ s.users ∧ (s.child i).pc = .copied
  | .receive i => i ∈ s.users ∧ (s.child i).pc = .next ∧ (s.child i).batch.head? = some .pipe
  | .deliver i n => i ∈ s.users ∧ (s.child i).pc.isTold ∧ n ≤ BUFFER_SIZE
  | .parentWait batch => s.rest = [] ∧ s.batch = [] ∧
      batch.Perm (s.users.filter fun i => (s.child i).upEvent)
  | .take => s.rest = [] ∧ s.batch ≠ []
  | .tell _ => s.rest ≠ []

def machine : Machine State Step := ⟨step, fun s i => enabled s i = true⟩

instance (s : State) (i : Step) : Decidable (machine.ok s i) :=
  inferInstanceAs (Decidable (enabled s i = true))

/-- The clients, each with a child of its own index. -/
abbrev Users := { users : List Nat // users.Nodup }

/-- The children before the first message; a segment may hold anything. -/
def initial (users : Users) (segment : Nat → Segment) : State where
  users := users.1
  child := fun i => ⟨[], false, [], .next, segment i, [], false, [], false, []⟩
  batch := []
  client := 0
  sockfd := 0
  rest := []
  announced := []

/-- The messages child `j` has to send: those announced by the others. -/
def State.due (s : State) (j : Nat) : List (List UInt8) :=
  (Bulletin.addressed s.announced j).map Prod.snd

/-- No child has an event of its pipe or one that is being handled, nor has the parent. -/
structure Quiet (s : State) : Prop where
  children : ∀ i ∈ s.users, (s.child i).pc = .next ∧ (s.child i).batch = [] ∧
    (s.child i).pipeEvent = false ∧ (s.child i).upEvent = false
  batch : s.batch = []
  rest : s.rest = []

/-- Every child has sent the messages of the others in the order they were announced, each once and
with its bytes, and all of them when everything has been handled. -/
def Delivered (s : State) : Prop :=
  ∀ j ∈ s.users, (s.child j).sent <+: s.due j ∧ (Quiet s → (s.child j).sent = s.due j)

/-- The indices a child has still to send a segment for. -/
def Child.toSend (c : Child) : List Nat :=
  match c.pc with
  | .told client => client :: c.down
  | _ => c.down

/-- The indices of child `i` that are on their way to child `j` and not yet in its pipe. -/
def State.load (s : State) (j i : Nat) : Nat :=
  (s.child i).up.length + if s.sockfd = i ∧ j ∈ s.rest then 1 else 0

/-- Child `j` has sent everything child `i` has announced: no index of `i` is on its way to it. -/
def Settled (s : State) (i j : Nat) : Prop := s.load j i = 0 ∧ i ∉ (s.child j).toSend

instance (s : State) (i j : Nat) : Decidable (Settled s i j) :=
  inferInstanceAs (Decidable (_ ∧ _))

/-- A child clears its segment only when all others have sent what it holds. A `send` to a client
takes the whole segment. The parent sends a child the index of the oldest message the child has not
been told of, when the event of the index before has been reported, and its `send` succeeds. -/
def Careful (s : State) : Step → Prop
  | .clear i => ∀ j ∈ s.users, j ≠ i → Settled s i j
  | .deliver _ n => n = BUFFER_SIZE
  | .tell sent => ∀ j ∈ s.rest.head?, j ≠ s.sockfd →
      sent = true ∧ (s.child j).pipeEvent = false ∧
        Bulletin.nextSender s.announced j ((s.child j).sent.length + (s.child j).toSend.length) =
          some s.client
  | _ => True

instance (s : State) (i : Step) : Decidable (Careful s i) := by
  unfold Careful
  split <;> infer_instance

/-! ## The invariant -/

def State.segments (s : State) (i : Nat) : List UInt8 := (s.child i).segment.1

/-- What child `j` has sent, and what it is to be told, fit the messages announced. -/
def Reads (s : State) (j : Nat) : Prop :=
  Bulletin.Reader s.announced s.segments j (s.child j).sent (s.child j).toSend (s.load j)

def Pc.writing : Pc → Bool
  | .cleared => true
  | .copied => true
  | _ => false

/-- `downs` and `events`: an event for every index in a pipe. `writing`: nobody has to send a
segment that is being written. -/
structure Inv (s : State) : Prop where
  nodup : s.users.Nodup
  rest : s.rest <:+ s.users
  batch : ∀ i ∈ s.batch, i ∈ s.users
  origin : s.rest ≠ [] → s.client = s.sockfd ∧ s.sockfd ∈ s.users
  ups : ∀ i, ∀ c ∈ (s.child i).up, c = i ∧ i ∈ s.users
  reads : ∀ j ∈ s.users, Reads s j
  downs : ∀ j ∈ s.users,
    (s.child j).down.length = (s.child j).pipeEvent.toNat + (s.child j).batch.count .pipe
  events : ∀ i ∈ s.users, ∀ j ∈ s.users, j ≠ i →
    (s.child i).up.length = (s.child i).upEvent.toNat + s.batch.count i
  writing : ∀ i ∈ s.users, (s.child i).pc.writing = true → ∀ j ∈ s.users, j ≠ i → Settled s i j

/-- A child as a reader of the others: all of it but its client and its pipe to the parent. -/
structure View where
  sent : List (List UInt8)
  toSend : List Nat
  down : List Nat
  pipeEvent : Bool
  pipeBatch : Nat
  segment : Segment

def Child.view (c : Child) : View :=
  ⟨c.sent, c.toSend, c.down, c.pipeEvent, c.batch.count .pipe, c.segment⟩

section
variable {s s' : State} {i j : Nat} {c : Child}

@[simp] theorem setChild_self : (s.setChild i c).child i = c := Function.update_self ..

theorem setChild_ne (h : j ≠ i) : (s.setChild i c).child j = s.child j :=
  Function.update_of_ne h ..

/-- What a step leaves of child `i` it leaves of all children. -/
theorem setChild_proj {α : Type} (f : Child → α) (hf : f c = f (s.child i)) (j : Nat) :
    f ((s.setChild i c).child j) = f (s.child j) := by
  by_cases hj : j = i
  · subst hj
    rw [setChild_self, hf]
  · rw [setChild_ne hj]

theorem segments_setChild_ne (h : j ≠ i) : (s.setChild i c).segments j = s.segments j := by
  rw [State.segments, setChild_ne h, State.segments]

theorem segments_setChild (h : c.segment = (s.child i).segment) :
    (s.setChild i c).segments = s.segments :=
  funext (setChild_proj (fun d => d.segment.1) (congrArg Subtype.val h))

/-! ## Steps that leave the readers alone -/

theorem segments_of_view (hv : ∀ j, (s'.child j).view = (s.child j).view) :
    s'.segments = s.segments :=
  funext fun j => congrArg (fun v => v.segment.1) (hv j)

theorem reads_of_view (hv : ∀ j, (s'.child j).view = (s.child j).view)
    (hr : Bulletin.Reader s'.announced s.segments j (s.child j).sent (s.child j).toSend
      (s'.load j)) : Reads s' j := by
  have hsent : (s'.child j).sent = (s.child j).sent := congrArg View.sent (hv j)
  have hsend : (s'.child j).toSend = (s.child j).toSend := congrArg View.toSend (hv j)
  rwa [Reads, segments_of_view hv, hsent, hsend]

theorem Inv.downs_of_view (h : Inv s) (hv : ∀ j, (s'.child j).view = (s.child j).view)
    (hj : j ∈ s.users) :
    (s'.child j).down.length = (s'.child j).pipeEvent.toNat + (s'.child j).batch.count .pipe := by
  have hdown : (s'.child j).down = (s.child j).down := congrArg View.down (hv j)
  have hevent : (s'.child j).pipeEvent = (s.child j).pipeEvent := congrArg View.pipeEvent (hv j)
  have hbatch : (s'.child j).batch.count .pipe = (s.child j).batch.count .pipe :=
    congrArg View.pipeBatch (hv j)
  rw [hdown, hevent, hbatch]
  exact h.downs j hj

theorem settled_of_view (hv : ∀ j, (s'.child j).view = (s.child j).view)
    (hload : s'.load j i = s.load j i) (hs : Settled s i j) : Settled s' i j := by
  have hsend : (s'.child j).toSend = (s.child j).toSend := congrArg View.toSend (hv j)
  exact ⟨hload.trans hs.1, hsend ▸ hs.2⟩

/-! ## Steps of a child -/

theorem toSend_told {client : Nat} (h : c.pc = .told client) : c.toSend = client :: c.down := by
  simp only [Child.toSend, h]

theorem toSend_of_not_told (h : c.pc.isTold = false) : c.toSend = c.down := by
  unfold Child.toSend
  split
  · rename_i hpc
    rw [hpc] at h
    cases h
  · rfl

theorem inv_initial (users : Users) (segment : Nat → Segment) : Inv (initial users segment) where
  nodup := users.2
  rest := List.nil_suffix
  batch := fun _ hi => absurd hi List.not_mem_nil
  origin := fun hne => absurd rfl hne
  ups := fun _ _ hc => absurd hc List.not_mem_nil
  reads := fun _ _ => Bulletin.reader_nil _ _ fun _ _ => by simp [State.load, initial]
  downs := fun _ _ => rfl
  events := fun _ _ _ _ _ => rfl
  writing := fun _ _ hw => by cases hw

theorem load_setChild (hup : c.up = (s.child i).up) (j : Nat) :
    (s.setChild i c).load j = s.load j := by
  funext k
  unfold State.load
  rw [setChild_proj Child.up hup]
  rfl

/-- A step of child `i` that leaves its pipe to the parent alone. It may write its segment when
nobody has to send it, and it may send what it is to send. -/
theorem Inv.setChild (h : Inv s) (hi : i ∈ s.users) (hup : c.up = (s.child i).up)
    (hevent : c.upEvent = (s.child i).upEvent)
    (hdowns : c.down.length = c.pipeEvent.toNat + c.batch.count .pipe)
    (hreads : Bulletin.Reader s.announced s.segments i c.sent c.toSend (s.load i))
    (hsegment : c.segment = (s.child i).segment ∨ ∀ j ∈ s.users, j ≠ i → Settled s i j)
    (hwriting : c.pc.writing = true → ∀ j ∈ s.users, j ≠ i → Settled s i j)
    (htoSend : ∀ k ∈ c.toSend, k ∈ (s.child i).toSend) : Inv (s.setChild i c) where
  nodup := h.nodup
  rest := h.rest
  batch := h.batch
  origin := h.origin
  ups := by
    intro k d hd
    rw [setChild_proj Child.up hup] at hd
    exact h.ups k d hd
  reads := by
    intro j hj
    unfold Reads
    rw [load_setChild hup]
    by_cases hji : j = i
    · subst hji
      rw [setChild_self]
      exact hreads.write (fun hne => absurd rfl hne) fun k hk => segments_setChild_ne hk
    · rw [setChild_ne hji]
      rcases hsegment with hsame | hfree
      · rw [segments_setChild hsame]
        exact h.reads j hj
      · exact (h.reads j hj).write (fun _ => hfree j hj hji) fun k hk => segments_setChild_ne hk
  downs := by
    intro j hj
    by_cases hji : j = i
    · subst hji
      rwa [setChild_self]
    · rw [setChild_ne hji]
      exact h.downs j hj
  events := by
    intro k hk j hj hne
    rw [setChild_proj Child.up hup, setChild_proj Child.upEvent hevent]
    exact h.events k hk j hj hne
  writing := by
    have hkeep : ∀ k j, Settled s k j → Settled (s.setChild i c) k j := by
      intro k j hs
      refine ⟨by rw [load_setChild hup]; exact hs.1, ?_⟩
      by_cases hji : j = i
      · subst hji
        rw [setChild_self]
        exact fun hmem => hs.2 (htoSend k hmem)
      · rw [setChild_ne hji]
        exact hs.2
    intro k hk hw j hj hne
    by_cases hki : k = i
    · subst hki
      rw [setChild_self] at hw
      exact hkeep k j (hwriting hw j hj hne)
    · rw [setChild_ne hki] at hw
      exact hkeep k j (h.writing k hk hw j hj hne)

/-- The same for a child that neither writes its segment nor sends. -/
theorem Inv.setChild_quiet (h : Inv s) (hi : i ∈ s.users) (hup : c.up = (s.child i).up)
    (hevent : c.upEvent = (s.child i).upEvent)
    (hdowns : c.down.length = c.pipeEvent.toNat + c.batch.count .pipe)
    (hsent : c.sent = (s.child i).sent) (htoSend : c.toSend = (s.child i).toSend)
    (hsegment : c.segment = (s.child i).segment)
    (hwriting : c.pc.writing = true → (s.child i).pc.writing = true) : Inv (s.setChild i c) := by
  have hreads := h.reads i hi
  unfold Reads at hreads
  rw [← hsent, ← htoSend] at hreads
  exact h.setChild hi hup hevent hdowns hreads (.inl hsegment)
    (fun hw => h.writing i hi (hwriting hw)) (fun k hk => htoSend ▸ hk)

theorem ready_count (c : Child) : c.ready.count .pipe = c.pipeEvent.toNat := by
  unfold Child.ready
  cases c.connEvent <;> cases c.pipeEvent <;> rfl

theorem reports_count {c : Child} {batch : List Source} (h : c.reports batch) :
    batch.count .pipe = c.pipeEvent.toNat := by
  rcases of_decide_eq_true h with hperm | ⟨-, hperm⟩
  · rw [hperm.count_eq, ready_count]
  · rw [hperm.count_eq, List.count_erase_of_ne (by simp), ready_count]

theorem Inv.clientSend (h : Inv s) (hi : i ∈ s.users) (bytes : List UInt8) :
    Inv (step s (.clientSend i bytes)) :=
  h.setChild_quiet hi rfl rfl (h.downs i hi) rfl rfl rfl id

theorem Inv.wait (h : Inv s) (hi : i ∈ s.users)
    (hbatch : (s.child i).batch = []) {batch : List Source}
    (hreports : (s.child i).reports batch) : Inv (wait i batch s) := by
  have hdown := h.downs i hi
  rw [hbatch, List.count_nil, Nat.add_zero] at hdown
  have hcount : (s.child i).down.length = false.toNat + batch.count .pipe := by
    rw [reports_count hreports, hdown, Bool.toNat_false, Nat.zero_add]
  exact h.setChild_quiet hi rfl rfl hcount rfl rfl rfl id

/-- Handling an event takes it from the batch. -/
theorem count_tail {batch : List Source} {e : Source} (h : batch.head? = some e) :
    batch.count .pipe = batch.tail.count .pipe + if e = .pipe then 1 else 0 := by
  obtain ⟨tail, rfl⟩ := List.head?_eq_some_iff.mp h
  cases e <;> simp

theorem Inv.clear (h : Inv s) (hi : i ∈ s.users) (hpc : (s.child i).pc = .next)
    (hhead : (s.child i).batch.head? = some .conn)
    (hcareful : ∀ j ∈ s.users, j ≠ i → Settled s i j) : Inv (clear i s) := by
  have hdown := h.downs i hi
  rw [count_tail hhead] at hdown
  have htoSend : (s.child i).toSend = (s.child i).down := toSend_of_not_told (by rw [hpc]; rfl)
  have hreads := h.reads i hi
  unfold Reads at hreads
  rw [htoSend] at hreads
  refine h.setChild hi rfl rfl hdown hreads (.inr hcareful) (fun _ => hcareful) ?_
  rw [htoSend]
  exact fun k hk => hk

theorem Inv.recv (h : Inv s) (hi : i ∈ s.users) (hpc : (s.child i).pc = .cleared) (n : Nat) :
    Inv (recv i n s) := by
  have hfree := h.writing i hi (by rw [hpc]; rfl)
  have htoSend : (s.child i).toSend = (s.child i).down := toSend_of_not_told (by rw [hpc]; rfl)
  unfold ShmChat.recv
  split
  · exact h.setChild_quiet hi rfl rfl (h.downs i hi) rfl htoSend.symm rfl (fun hw => by cases hw)
  · have hreads := h.reads i hi
    unfold Reads at hreads
    rw [htoSend] at hreads
    refine h.setChild hi rfl rfl (h.downs i hi) hreads (.inr hfree) (fun _ => hfree) ?_
    rw [htoSend]
    exact fun k hk => hk

theorem Inv.receive (h : Inv s) (hi : i ∈ s.users) (hpc : (s.child i).pc = .next)
    (hhead : (s.child i).batch.head? = some .pipe) : Inv (receive i s) := by
  have hdown := h.downs i hi
  rw [count_tail hhead, if_pos rfl] at hdown
  have htoSend : (s.child i).toSend = (s.child i).down := toSend_of_not_told (by rw [hpc]; rfl)
  unfold ShmChat.receive
  split
  · rename_i hnil
    rw [hnil] at hdown
    exact absurd hdown (by simp)
  · rename_i client down hcons
    rw [hcons, List.length_cons] at hdown
    refine h.setChild_quiet hi rfl rfl ?_ rfl ?_ rfl (fun hw => by cases hw)
    · change down.length = (s.child i).pipeEvent.toNat + (s.child i).batch.tail.count .pipe
      omega
    · rw [htoSend, hcons]
      rfl

theorem Inv.deliver (h : Inv s) (hi : i ∈ s.users) : Inv (deliver i BUFFER_SIZE s) := by
  unfold ShmChat.deliver
  split
  · rename_i client hpc
    have hreads := h.reads i hi
    unfold Reads at hreads
    rw [toSend_told hpc] at hreads
    have hwhole : (s.child client).segment.1.take BUFFER_SIZE = s.segments client :=
      List.take_of_length_le (Nat.le_of_eq (s.child client).segment.2)
    have hsome : BUFFER_SIZE ≠ 0 := by decide
    rw [hwhole, if_neg hsome]
    refine h.setChild hi rfl rfl (h.downs i hi) hreads.copy (.inl rfl) (fun hw => by cases hw) ?_
    rw [toSend_told hpc]
    exact fun k hk => List.mem_cons_of_mem _ hk
  · exact h

/-- The index sent is on its way to all others. -/
theorem load_announce (hup : c.up = (s.child i).up ++ [i]) (j : Nat) :
    (s.setChild i c).load j i = s.load j i + 1 ∧
      ∀ k, k ≠ i → (s.setChild i c).load j k = s.load j k := by
  constructor
  · unfold State.load
    rw [setChild_self, hup, List.length_append, List.length_singleton]
    exact Nat.add_right_comm ..
  · intro k hk
    unfold State.load
    rw [setChild_ne hk]
    rfl

theorem Inv.announced (h : Inv s) (hi : i ∈ s.users)
    (hfree : ∀ j ∈ s.users, j ≠ i → Settled s i j) (hview : c.view = (s.child i).view)
    (hup : c.up = (s.child i).up ++ [i]) (hevent : c.upEvent = true)
    (hpc : c.pc.writing = false) :
    Inv { s.setChild i c with announced := s.announced ++ [(i, s.segments i)] } := by
  have hv := setChild_proj Child.view hview
  constructor
  · exact h.nodup
  · exact h.rest
  · exact h.batch
  · exact h.origin
  · intro k d hd
    change d ∈ ((s.setChild i c).child k).up at hd
    by_cases hk : k = i
    · subst hk
      rw [setChild_self, hup] at hd
      rcases List.mem_append.mp hd with hold | hnew
      · exact h.ups k d hold
      · exact ⟨List.mem_singleton.mp hnew, hi⟩
    · rw [setChild_ne hk] at hd
      exact h.ups k d hd
  · intro j hj
    obtain ⟨hload, hothers⟩ := load_announce (s := s) hup j
    refine reads_of_view (s := s) ?_ ?_
    · exact hv
    · by_cases hji : j = i
      · subst hji
        exact ((h.reads j hj).announce_own _).congr hothers
      · exact (h.reads j hj).announce (Ne.symm hji) hload hothers
  · exact fun j hj => h.downs_of_view hv hj
  · intro k hk j hj hne
    change ((s.setChild i c).child k).up.length = ((s.setChild i c).child k).upEvent.toNat +
      s.batch.count k
    by_cases hki : k = i
    · -- nothing of `i` was on its way, so its event is the first
      subst hki
      have hold := h.events k hk j hj hne
      have hzero := (hfree j hj hne).1
      unfold State.load at hzero
      rw [setChild_self, hup, hevent, List.length_append, List.length_singleton, Bool.toNat_true]
      omega
    · rw [setChild_ne hki]
      exact h.events k hk j hj hne
  · intro k hk hw j hj hne
    change ((s.setChild i c).child k).pc.writing = true at hw
    by_cases hki : k = i
    · subst hki
      rw [setChild_self, hpc] at hw
      cases hw
    · rw [setChild_ne hki] at hw
      exact settled_of_view hv ((load_announce hup j).2 k hki) (h.writing k hk hw j hj hne)

theorem Inv.announce (h : Inv s) (hi : i ∈ s.users) (hpc : (s.child i).pc = .copied)
    (sent : Bool) : Inv (announce i sent s) := by
  have htoSend : (s.child i).toSend = (s.child i).down := toSend_of_not_told (by rw [hpc]; rfl)
  have hfree := h.writing i hi (by rw [hpc]; rfl)
  unfold ShmChat.announce
  split
  · exact h.setChild_quiet hi rfl rfl (h.downs i hi) rfl htoSend.symm rfl (fun hw => by cases hw)
  · have hview : Child.view { s.child i with
        pc := .next, up := (s.child i).up ++ [i], upEvent := true } = (s.child i).view := by
      unfold Child.view
      rw [htoSend]
      rfl
    exact h.announced hi hfree hview rfl rfl rfl

/-! ## Steps of the parent -/

theorem Inv.parentWait (h : Inv s) (hrest : s.rest = []) (hbatch : s.batch = []) {batch : List Nat}
    (hperm : batch.Perm (s.users.filter fun i => (s.child i).upEvent)) :
    Inv (parentWait batch s) where
  nodup := h.nodup
  rest := h.rest
  batch := fun i hi => List.mem_of_mem_filter (hperm.mem_iff.mp hi)
  origin := fun hne => absurd hrest hne
  ups := h.ups
  reads := h.reads
  downs := h.downs
  events := by
    intro i hi j hj hne
    have hold := h.events i hi j hj hne
    rw [hbatch, List.count_nil, Nat.add_zero] at hold
    change (s.child i).up.length = false.toNat + batch.count i
    rw [hold, hperm.count_eq, Bool.toNat_false, Nat.zero_add]
    cases he : (s.child i).upEvent with
    | true =>
      have hall : (s.users.filter fun i => (s.child i).upEvent).count i = s.users.count i :=
        List.count_filter he
      rw [hall, List.count_eq_one_of_mem h.nodup hi]
      rfl
    | false =>
      symm
      rw [Bool.toNat_false, List.count_eq_zero]
      intro hmem
      rw [(List.mem_filter.mp hmem).2] at he
      cases he
  writing := h.writing

/-- Taking an index from a pipe starts the broadcast loop; for every child the index is still on
its way. -/
theorem load_take {client : Nat} (hup : (s.child i).up = client :: c.up) (hrest : s.rest = [])
    {batch : List Nat} (hj : j ∈ s.users) :
    State.load { s.setChild i c with
      batch := batch, client := client, sockfd := i, rest := s.users } j = s.load j := by
  funext k
  unfold State.load
  by_cases hk : k = i
  · subst hk
    simp [State.setChild, hup, hrest, hj]
  · simp [State.setChild, Function.update_of_ne hk, hrest, Ne.symm hk]

theorem Inv.taken (h : Inv s) (hrest : s.rest = []) {batch : List Nat}
    (hbatch : s.batch = i :: batch) {client : Nat} (hview : c.view = (s.child i).view)
    (hup : (s.child i).up = client :: c.up) (hevent : c.upEvent = (s.child i).upEvent)
    (hpc : c.pc = (s.child i).pc) :
    Inv { s.setChild i c with
      batch := batch, client := client, sockfd := i, rest := s.users } := by
  have hv := setChild_proj Child.view hview
  constructor
  · exact h.nodup
  · exact List.suffix_refl _
  · exact fun k hk => h.batch k (by rw [hbatch]; exact List.mem_cons_of_mem _ hk)
  · exact fun _ => h.ups i client (by rw [hup]; exact List.mem_cons_self)
  · intro k d hd
    change d ∈ ((s.setChild i c).child k).up at hd
    by_cases hk : k = i
    · subst hk
      rw [setChild_self] at hd
      exact h.ups k d (by rw [hup]; exact List.mem_cons_of_mem _ hd)
    · rw [setChild_ne hk] at hd
      exact h.ups k d hd
  · intro j hj
    refine reads_of_view (s := s) ?_ ?_
    · exact hv
    · rw [load_take hup hrest hj]
      exact h.reads j hj
  · exact fun j hj => h.downs_of_view hv hj
  · intro k hk j hj hne
    have hold := h.events k hk j hj hne
    rw [hbatch, List.count_cons] at hold
    change ((s.setChild i c).child k).up.length = ((s.setChild i c).child k).upEvent.toNat +
      batch.count k
    by_cases hki : k = i
    · subst hki
      rw [hup, if_pos (beq_self_eq_true _), List.length_cons] at hold
      rw [setChild_self, hevent]
      omega
    · rw [setChild_ne hki]
      rwa [if_neg (by simpa using Ne.symm hki)] at hold
  · intro k hk hw j hj hne
    change ((s.setChild i c).child k).pc.writing = true at hw
    rw [setChild_proj Child.pc hpc] at hw
    exact settled_of_view hv (congrFun (load_take hup hrest hj) k) (h.writing k hk hw j hj hne)

theorem Inv.take (h : Inv s) (hrest : s.rest = []) : Inv (take s) := by
  unfold ShmChat.take
  split
  · exact h
  · rename_i i batch hbatch
    split
    · rename_i hnil
      refine ⟨h.nodup, h.rest, ?_, h.origin, h.ups, h.reads, h.downs, ?_, h.writing⟩
      · exact fun k hk => h.batch k (by rw [hbatch]; exact List.mem_cons_of_mem _ hk)
      · intro k hk j hj hne
        have hold := h.events k hk j hj hne
        rw [hbatch, List.count_cons] at hold
        by_cases hki : k = i
        · -- an event without an index: only when there is nobody to tell
          subst hki
          rw [hnil, if_pos (beq_self_eq_true _)] at hold
          exact absurd hold (by simp)
        · rwa [if_neg (by simpa using Ne.symm hki)] at hold
    · rename_i client up hup
      exact h.taken hrest hbatch rfl hup rfl rfl

/-- The loop goes past an entry: for the others nothing changes, and the one told has one index
less on its way. -/
theorem load_tell {rest : List Nat} (hrest : s.rest = j :: rest) (hnot : j ∉ rest) (k m : Nat) :
    State.load { s with rest := rest } k m =
      if k = j ∧ m = s.sockfd then s.load k m - 1 else s.load k m := by
  unfold State.load
  rw [hrest]
  by_cases hkj : k = j
  · subst hkj
    by_cases hm : m = s.sockfd
    · subst hm
      simp [hnot]
    · simp [hm, Ne.symm hm]
  · simp [hkj]

/-- The loop comes to every entry once. -/
theorem Inv.notMem_rest (h : Inv s) {rest : List Nat} (hrest : s.rest = j :: rest) : j ∉ rest :=
  (List.nodup_cons.mp ((hrest ▸ h.rest).sublist.nodup h.nodup)).1

theorem Inv.skip (h : Inv s) {rest : List Nat} (hrest : s.rest = s.sockfd :: rest) :
    Inv { s with rest := rest } := by
  have hload : ∀ j k, k ≠ j → State.load { s with rest := rest } j k = s.load j k := by
    intro j k hkj
    rw [load_tell hrest (h.notMem_rest hrest), if_neg]
    rintro ⟨rfl, rfl⟩
    exact hkj rfl
  have hne : s.rest ≠ [] := by rw [hrest]; exact List.cons_ne_nil _ _
  constructor
  · exact h.nodup
  · exact (List.suffix_cons s.sockfd rest).trans (hrest ▸ h.rest)
  · exact h.batch
  · exact fun _ => h.origin hne
  · exact h.ups
  · exact fun j hj => (h.reads j hj).congr (hload j)
  · exact h.downs
  · exact h.events
  · intro k hk hw j hj hkj
    have hs := h.writing k hk hw j hj hkj
    exact ⟨(hload j k (Ne.symm hkj)).trans hs.1, hs.2⟩

/-- The state after child `j` has been sent the index. -/
def State.told (s : State) (j : Nat) (rest : List Nat) : State :=
  { s.setChild j { s.child j with down := (s.child j).down ++ [s.client], pipeEvent := true } with
    rest := rest }

theorem told_proj {α : Type} (f : Child → α)
    (hf : ∀ (d : Child) down pipeEvent, f { d with down := down, pipeEvent := pipeEvent } = f d)
    (rest : List Nat) (k : Nat) : f ((s.told j rest).child k) = f (s.child k) :=
  setChild_proj f (hf (s.child j) _ _) k

theorem told_ne {rest : List Nat} (h : i ≠ j) : (s.told j rest).child i = s.child i :=
  Function.update_of_ne h ..

theorem told_toSend (rest : List Nat) :
    ((s.told j rest).child j).toSend = (s.child j).toSend ++ [s.client] := by
  have hself : (s.told j rest).child j = _ := setChild_self
  rw [hself]
  cases hpc : (s.child j).pc <;> simp [Child.toSend, hpc]

theorem told_load {rest : List Nat} (hrest : s.rest = j :: rest) (hnot : j ∉ rest) (k m : Nat) :
    (s.told j rest).load k m =
      if k = j ∧ m = s.sockfd then s.load k m - 1 else s.load k m := by
  rw [← load_tell hrest hnot k m]
  unfold State.load
  rw [told_proj Child.up (fun _ _ _ => rfl)]
  rfl

/-- The index sent is not one that nobody waits for. -/
theorem Inv.told_settled (h : Inv s) {rest : List Nat} (hrest : s.rest = j :: rest) {k m : Nat}
    (hs : Settled s k m) : Settled (s.told j rest) k m := by
  obtain ⟨hzero, hnone⟩ := hs
  constructor
  · rw [told_load hrest (h.notMem_rest hrest)]
    split
    · rw [hzero]
    · exact hzero
  · by_cases hmj : m = j
    · subst hmj
      have hk : k ≠ s.client := by
        rintro rfl
        have hclient := (h.origin (by rw [hrest]; exact List.cons_ne_nil _ _)).1
        simp [State.load, hclient, hrest] at hzero
      rw [told_toSend]
      simp [hnone, hk]
    · rwa [told_ne hmj]

theorem Inv.told_reads (h : Inv s) {rest : List Nat} (hrest : s.rest = j :: rest)
    (hnext : Bulletin.nextSender s.announced j
      ((s.child j).sent.length + (s.child j).toSend.length) = some s.client) {k : Nat}
    (hk : k ∈ s.users) : Reads (s.told j rest) k := by
  have hload := told_load hrest (h.notMem_rest hrest)
  have hclient := (h.origin (by rw [hrest]; exact List.cons_ne_nil _ _)).1
  have hsegments : (s.told j rest).segments = s.segments :=
    funext (told_proj (fun d => d.segment.1) (fun _ _ _ => rfl) rest)
  unfold Reads
  rw [hsegments, told_proj Child.sent (fun _ _ _ => rfl)]
  by_cases hkj : k = j
  · subst hkj
    have hone : 0 < s.load k s.client := by simp [State.load, hclient, hrest]
    rw [told_toSend]
    refine (h.reads k hk).tell hnext ?_ ?_
    · rw [hload, if_pos ⟨rfl, hclient⟩]
      omega
    · intro m hm
      rw [hload, if_neg (fun hand => hm (hclient ▸ hand.2))]
  · rw [told_ne hkj]
    exact (h.reads k hk).congr fun m _ => by rw [hload, if_neg (fun hand => hkj hand.1)]

theorem Inv.told (h : Inv s) {rest : List Nat} (hrest : s.rest = j :: rest)
    (hevent : (s.child j).pipeEvent = false)
    (hnext : Bulletin.nextSender s.announced j
      ((s.child j).sent.length + (s.child j).toSend.length) = some s.client) :
    Inv (s.told j rest) where
  nodup := h.nodup
  rest := (List.suffix_cons j rest).trans (hrest ▸ h.rest)
  batch := h.batch
  origin := fun _ => h.origin (by rw [hrest]; exact List.cons_ne_nil _ _)
  ups := by
    intro k d hd
    rw [told_proj Child.up (fun _ _ _ => rfl)] at hd
    exact h.ups k d hd
  reads := fun k hk => h.told_reads hrest hnext hk
  downs := by
    intro k hk
    have hold := h.downs k hk
    by_cases hkj : k = j
    · subst hkj
      have hself : (s.told k rest).child k = _ := setChild_self
      rw [hevent, Bool.toNat_false, Nat.zero_add] at hold
      rw [hself]
      simp only [List.length_append, List.length_singleton, Bool.toNat_true, hold]
      exact Nat.add_comm ..
    · rwa [told_ne hkj]
  events := by
    intro k hk m hm hmk
    rw [told_proj Child.up (fun _ _ _ => rfl), told_proj Child.upEvent (fun _ _ _ => rfl)]
    exact h.events k hk m hm hmk
  writing := by
    intro k hk hw m hm hmk
    rw [told_proj Child.pc (fun _ _ _ => rfl)] at hw
    exact h.told_settled hrest (h.writing k hk hw m hm hmk)

theorem Inv.tell (h : Inv s) {sent : Bool} (hcareful : Careful s (.tell sent)) :
    Inv (tell sent s) := by
  unfold ShmChat.tell
  split
  · exact h
  · rename_i j rest hrest
    by_cases hj : j = s.sockfd
    · rw [if_pos (Or.inl hj)]
      exact h.skip (hj ▸ hrest)
    · obtain ⟨rfl, hevent, hnext⟩ := hcareful j (by rw [hrest]; rfl) hj
      rw [if_neg (by simp [hj])]
      exact h.told hrest hevent hnext

/-! ## Runs -/

theorem step_inv (s : State) (i : Step) (h : Inv s) (hok : machine.ok s i)
    (hcareful : Careful s i) : Inv (machine.step s i) := by
  have hen : enabled s i = true := hok
  unfold enabled at hen
  cases i with
  | clientSend i bytes => exact h.clientSend (of_decide_eq_true hen) bytes
  | wait i batch =>
    obtain ⟨hi, _, hbatch, hreports⟩ := of_decide_eq_true hen
    exact h.wait hi hbatch hreports
  | clear i =>
    obtain ⟨hi, hpc, hhead⟩ := of_decide_eq_true hen
    exact h.clear hi hpc hhead hcareful
  | recv i n =>
    obtain ⟨hi, hpc, _⟩ := of_decide_eq_true hen
    exact h.recv hi hpc n
  | announce i sent =>
    obtain ⟨hi, hpc⟩ := of_decide_eq_true hen
    exact h.announce hi hpc sent
  | receive i =>
    obtain ⟨hi, hpc, hhead⟩ := of_decide_eq_true hen
    exact h.receive hi hpc hhead
  | deliver i n =>
    obtain ⟨hi, _⟩ := of_decide_eq_true hen
    obtain rfl : n = BUFFER_SIZE := hcareful
    exact h.deliver hi
  | parentWait batch =>
    obtain ⟨hrest, hbatch, hperm⟩ := of_decide_eq_true hen
    exact h.parentWait hrest hbatch hperm
  | take =>
    obtain ⟨hrest, _⟩ := of_decide_eq_true hen
    exact h.take hrest
  | tell sent => exact h.tell hcareful

theorem Inv.delivered (h : Inv s) : Delivered s := by
  intro j hj
  have hreads := h.reads j hj
  refine ⟨hreads.exact, ?_⟩
  intro hquiet
  obtain ⟨hpc, hbatch, hpipe, _⟩ := hquiet.children j hj
  have hdown : (s.child j).down = [] := by
    have hlen := h.downs j hj
    rw [hbatch, hpipe] at hlen
    exact List.length_eq_zero_iff.mp hlen
  have hload : ∀ i, i ≠ j → s.load j i = 0 := by
    intro i hne
    have hup : (s.child i).up.length = 0 := by
      by_cases hi : i ∈ s.users
      · rw [h.events i hi j hj (Ne.symm hne), (hquiet.children i hi).2.2.2, hquiet.batch]
        rfl
      · rw [List.length_eq_zero_iff, List.eq_nil_iff_forall_not_mem]
        exact fun d hd => hi (h.ups i d hd).2
    simp [State.load, hup, hquiet.rest]
  unfold Reads at hreads
  rw [toSend_of_not_told (by rw [hpc]; rfl), hdown] at hreads
  exact hreads.complete hload

/-- Every child sends each message of the others once, with its bytes and in the order announced, in
runs without a careless step. -/
theorem delivered_of_careful (users : Users) (segment : Nat → Segment) (steps : List Step)
    (hvalid : machine.Valid (initial users segment) steps)
    (hcareful : machine.Each Careful (initial users segment) steps) :
    machine.Always Delivered (initial users segment) steps :=
  Machine.Always.imp (fun _ h => h.delivered) <|
    Machine.always_inv_of_each step_inv (inv_initial users segment) hvalid hcareful

theorem delivered_of_careful_twoClients :
    machine.Always Delivered (initial ⟨[0, 1], by decide⟩ fun _ => record [])
      [.clientSend 0 [97], .wait 0 [.conn], .clear 0, .recv 0 1, .announce 0 true, .parentWait [0],
        .take, .tell true, .tell true, .wait 1 [.pipe], .receive 1, .deliver 1 1024,
        .clientSend 0 [98], .wait 0 [.conn], .clear 0] :=
  delivered_of_careful ⟨[0, 1], by decide⟩ (fun _ => record []) _ (by decide +kernel)
    (by decide +kernel)

/-- The first client sends a second message before the other child handles the index of the first:
the other client gets the second message for it. -/
theorem not_delivered_overwritten :
    ¬∀ (users : Users) (segment : Nat → Segment) (steps : List Step),
    machine.Valid (initial users segment) steps →
      machine.Always Delivered (initial users segment) steps := by
  intro h
  have hlast := (h ⟨[0, 1], by decide⟩ (fun _ => record [])
    [.clientSend 0 [97], .wait 0 [.conn], .clear 0, .recv 0 1, .announce 0 true, .parentWait [0],
      .take, .tell true, .tell true, .clientSend 0 [98], .wait 0 [.conn], .clear 0, .recv 0 1,
      .wait 1 [.pipe], .receive 1, .deliver 1 1024] (by decide +kernel)).last
  have hprefix := (hlast 1 (by decide)).1
  revert hprefix
  decide +kernel

end

end ShmChat
end Unpvol1
