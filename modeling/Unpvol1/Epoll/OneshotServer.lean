import Mathlib.Data.List.Nodup
import Mathlib.Logic.Function.Basic
import Unpvol1.Lib.Machine
import Unpvol1.Lib.Threads

/-!
# Epoll.OneshotServer

The threads of `epoll_server_edge_trigger_oneshot.c` on one epoll instance. A step of the machine is
one system call of one thread, or its `for` loop turning to the next event.

* `turn`, `act`  — the branches of `epoll_thread`, call by call.
* `owners`       — how often a descriptor is armed in epoll or in a thread's hands.
* `Kept`, `lost_move` — what a call can do with the owners of the descriptors that stay open.
* `oneHolder_iff` — every descriptor keeps its one owner just when every call is `Careful`.
-/

namespace Unpvol1
namespace OneshotServer

def EPOLLMAXEVENTS : Nat := 64

/-- The bits of `events` the threads test. -/
structure Events where
  epollerr : Bool
  epollhup : Bool
  epollin : Bool
deriving DecidableEq

structure Event where
  fd : Nat
  events : Events
deriving DecidableEq

/-- The call a thread makes next. -/
inductive Pc where
  /-- At the head of the `for` loop, or in `epoll_wait` when the loop is done. -/
  | loop
  | accepting
  | adding (connfd : Nat)
  /-- `EPOLL_CTL_MOD` -/
  | rearming (fd : Nat)
  | reading (connfd : Nat)
  /-- The `close` after the read loop. -/
  | closing (fd : Nat)
  /-- The `close` of the error branch. -/
  | erring (fd : Nat)
  /-- Behind it, `EPOLL_CTL_DEL`. -/
  | deleting (fd : Nat)
deriving DecidableEq

/-- `batch` are the events the `for` loop has still to come to. -/
structure Thread where
  batch : List Event
  pc : Pc
deriving DecidableEq

/-- The descriptor table, which of it are connections, what epoll has registered (armed or
disabled), and the threads. -/
structure State where
  opened : Nat → Bool
  conns : Nat → Bool
  registered : Nat → Option Bool
  threads : List Thread
  aborted : Bool

inductive Accepted where
  | again
  | error
  | conn (connfd : Nat)
deriving DecidableEq

inductive ReadResult where
  /-- Bytes, with whether `write` to standard output succeeds. -/
  | data (written : Bool)
  | eof
  | again
  | error
deriving DecidableEq

/-- A call with its result. -/
inductive Act where
  | wait (events : List Event)
  | next
  | accept (result : Accepted)
  | add (success : Bool)
  | mod (success : Bool)
  | read (result : ReadResult)
  | close
  | del (success : Bool)
deriving DecidableEq

structure Step where
  thread : Nat
  act : Act
deriving DecidableEq

section
variable (listenfd : Nat)

/-- The branch of the loop body for an event. -/
def turn (e : Event) : Pc :=
  if e.events.epollerr = true ∨ e.events.epollhup = true ∨ e.events.epollin = false then
    .erring e.fd
  else if e.fd = listenfd then .accepting
  else .reading e.fd

end

def setThread (j : Nat) (t : Thread) (s : State) : State :=
  { s with threads := s.threads.set j t }

/-- `EPOLLONESHOT`: what is reported is disabled. -/
def disarm (events : List Event) (s : State) : State :=
  { s with
    registered := fun fd => if fd ∈ events.map Event.fd then some false else s.registered fd }

def arm (fd : Nat) (s : State) : State :=
  { s with registered := Function.update s.registered fd (some true) }

def unregister (fd : Nat) (s : State) : State :=
  { s with registered := Function.update s.registered fd none }

def openFd (fd : Nat) (s : State) : State :=
  { s with
    opened := Function.update s.opened fd true
    conns := Function.update s.conns fd true }

/-- `close` also takes the descriptor out of epoll. -/
def closeFd (fd : Nat) (s : State) : State :=
  unregister fd { s with
    opened := Function.update s.opened fd false
    conns := Function.update s.conns fd false }

section
variable (listenfd : Nat)

/-- What a call of thread `j`, which is at `t`, does. -/
def act (j : Nat) (t : Thread) (s : State) : Act → State
  | .wait events => setThread j { t with batch := events } (disarm events s)
  | .next =>
    match t.batch with
    | [] => s
    | e :: batch => setThread j ⟨batch, turn listenfd e⟩ s
  | .accept .again => setThread j { t with pc := .rearming listenfd } s
  | .accept .error => setThread j { t with pc := .loop } s
  | .accept (.conn connfd) => setThread j { t with pc := .adding connfd } (openFd connfd s)
  | .add success =>
    match t.pc with
    | .adding connfd =>
      if success then setThread j { t with pc := .accepting } (arm connfd s)
      else setThread j { t with pc := .loop } s
    | _ => s
  | .mod success =>
    match t.pc with
    | .rearming fd => setThread j { t with pc := .loop } (if success then arm fd s else s)
    | _ => s
  | .read result =>
    match t.pc with
    | .reading connfd =>
      match result with
      | .data written => { s with aborted := !written }
      | .again => setThread j { t with pc := .rearming connfd } s
      | .eof => setThread j { t with pc := .closing connfd } s
      | .error => setThread j { t with pc := .closing connfd } s
    | _ => s
  | .close =>
    match t.pc with
    | .closing fd => setThread j { t with pc := .loop } (closeFd fd s)
    | .erring fd => setThread j { t with pc := .deleting fd } (closeFd fd s)
    | _ => s
  | .del success =>
    match t.pc with
    | .deleting fd => setThread j { t with pc := .loop } (if success then unregister fd s else s)
    | _ => s

def step (s : State) (i : Step) : State :=
  match s.threads[i.thread]? with
  | none => s
  | some t => act listenfd i.thread t s i.act

end

/-- `accept` returns the lowest descriptor that is free. -/
def LowestFree (s : State) (fd : Nat) : Prop := s.opened fd = false ∧ ∀ k < fd, s.opened k = true

instance (s : State) (fd : Nat) : Decidable (LowestFree s fd) :=
  inferInstanceAs (Decidable (s.opened fd = false ∧ ∀ k < fd, s.opened k = true))

/-- The calls a thread can make where it is, with the results the kernel can give: `epoll_wait`
reports armed descriptors, and `epoll_ctl` succeeds on what is registered, or with
`EPOLL_CTL_ADD`, is not. -/
def enabled (s : State) (t : Thread) : Act → Bool
  | .wait events =>
    t = ⟨[], .loop⟩ ∧ events.length ≤ EPOLLMAXEVENTS ∧ (events.map Event.fd).Nodup ∧
      ∀ e ∈ events, s.registered e.fd = some true
  | .next => t.pc = .loop ∧ t.batch ≠ []
  | .accept (.conn connfd) => t.pc = .accepting ∧ LowestFree s connfd
  | .accept _ => t.pc = .accepting
  | .add success =>
    match t.pc with
    | .adding connfd => success = true → s.registered connfd = none
    | _ => false
  | .mod success =>
    match t.pc with
    | .rearming fd => success = true → s.registered fd ≠ none
    | _ => false
  | .read _ =>
    match t.pc with
    | .reading _ => true
    | _ => false
  | .close =>
    match t.pc with
    | .closing _ => true
    | .erring _ => true
    | _ => false
  | .del success =>
    match t.pc with
    | .deleting fd => success = true → s.registered fd ≠ none
    | _ => false

def machine (listenfd : Nat) : Machine State Step where
  step := step listenfd
  ok s i := s.aborted = false ∧ (s.threads[i.thread]?).any (enabled s · i.act) = true

instance (listenfd : Nat) (s : State) (i : Step) : Decidable ((machine listenfd).ok s i) :=
  inferInstanceAs (Decidable
    (s.aborted = false ∧ (s.threads[i.thread]?).any (enabled s · i.act) = true))

/-- The descriptor table when the threads start, `listenfd` in it. -/
structure Setup where
  listenfd : Nat
  opened : Nat → Bool
  listening : opened listenfd = true

def start (g : Setup) (threadNum : Nat) : State where
  opened := g.opened
  conns := fun _ => false
  registered := Function.update (fun _ => none) g.listenfd (some true)
  threads := List.replicate threadNum ⟨[], .loop⟩
  aborted := false

/-! ## Owners -/

/-- The descriptors the calls from here to the next event are for. -/
def Pc.holds (listenfd : Nat) : Pc → List Nat
  | .loop => []
  | .accepting => [listenfd]
  | .adding connfd => [connfd, listenfd]
  | .rearming fd => [fd]
  | .reading connfd => [connfd]
  | .closing fd => [fd]
  | .erring fd => [fd]
  | .deleting _ => []

def Thread.holds (listenfd : Nat) (t : Thread) : List Nat :=
  t.pc.holds listenfd ++ t.batch.map Event.fd

def armed (s : State) (fd : Nat) : Bool := s.registered fd = some true

section
variable (listenfd : Nat)

/-- How often `fd` is in the hands of a thread. -/
def handlers (s : State) (fd : Nat) : Nat :=
  (s.threads.map fun t => (t.holds listenfd).count fd).sum

/-- The listening socket, or an open connection. -/
def Live (s : State) (fd : Nat) : Prop := fd = listenfd ∨ s.conns fd = true

/-- Each is armed, or one thread has it, and not both. -/
def Owned (s : State) : Prop :=
  ∀ fd, Live listenfd s fd →
    (armed s fd = true ∧ handlers listenfd s fd = 0) ∨
      (armed s fd = false ∧ handlers listenfd s fd = 1)

/-- What a call of a thread at `t` must be for every descriptor to keep its owner. -/
def CarefulAct (s : State) (t : Thread) : Act → Prop
  | .accept result => result ≠ .error
  | .add success => success = true
  | .mod success => success = true
  | .close => t.pc ≠ .erring listenfd
  | .del success => ∀ fd, t.pc = .deleting fd → success = true → armed s fd = false
  | _ => True

/-- `accept` fails only with EAGAIN, `EPOLL_CTL_ADD` and `EPOLL_CTL_MOD` succeed, the listening
socket reports no error, and `EPOLL_CTL_DEL` does not find the number armed for a new connection. -/
def Careful (s : State) (i : Step) : Prop :=
  ∀ t ∈ s.threads[i.thread]?, CarefulAct listenfd s t i.act

def owners (s : State) (fd : Nat) : Nat := (armed s fd).toNat + handlers listenfd s fd

variable {listenfd} {s : State}

theorem owned_iff_owners :
    Owned listenfd s ↔ ∀ fd, Live listenfd s fd → owners listenfd s fd = 1 := by
  refine forall_congr' fun fd => imp_congr_right fun _ => ?_
  unfold owners
  cases armed s fd <;> simp

/-! ## One thread -/

/-- A thread that moves changes the handlers by what it takes up and puts down. -/
theorem handlers_setThread (listenfd : Nat) {s' : State} {j : Nat} {t t' : Thread}
    (hj : s.threads[j]? = some t) (hs : s'.threads = s.threads.set j t') (fd : Nat) :
    handlers listenfd s' fd + (t.holds listenfd).count fd =
      handlers listenfd s fd + (t'.holds listenfd).count fd := by
  unfold handlers
  rw [hs]
  exact Threads.sum_move (fun t => (t.holds listenfd).count fd) hj t'

theorem count_le_handlers (listenfd : Nat) {j : Nat} {t : Thread}
    (hj : s.threads[j]? = some t) (fd : Nat) :
    (t.holds listenfd).count fd ≤ handlers listenfd s fd := by
  have hset : (setThread j ⟨[], .loop⟩ s).threads = s.threads.set j ⟨[], .loop⟩ := rfl
  have h := handlers_setThread listenfd hj hset fd
  have hnil : ((⟨[], .loop⟩ : Thread).holds listenfd).count fd = 0 := rfl
  omega

/-- Descriptors that are not live are out of epoll and of the threads' hands, live ones are open,
and the listening socket is neither read nor closed after reading. -/
structure Inv (listenfd : Nat) (s : State) : Prop where
  dead : ∀ fd, ¬Live listenfd s fd → s.registered fd = none ∧ handlers listenfd s fd = 0
  opened : ∀ fd, Live listenfd s fd → s.opened fd = true
  reading : ∀ t ∈ s.threads, t.pc ≠ .reading listenfd ∧ t.pc ≠ .closing listenfd

theorem Inv.live_of_registered (h : Inv listenfd s) {fd : Nat} (hr : s.registered fd ≠ none) :
    Live listenfd s fd := by
  by_contra hd
  exact hr (h.dead fd hd).1

theorem Inv.live_of_handlers (h : Inv listenfd s) {fd : Nat}
    (hh : 0 < handlers listenfd s fd) : Live listenfd s fd := by
  by_contra hd
  rw [(h.dead fd hd).2] at hh
  cases hh

/-- The step leaves the descriptor table, and the owners of every descriptor, as they are. -/
structure Kept (listenfd : Nat) (s s' : State) : Prop where
  opened : s'.opened = s.opened
  conns : s'.conns = s.conns
  owners : ∀ fd, owners listenfd s' fd = owners listenfd s fd
  registered : ∀ fd, s'.registered fd ≠ none → Live listenfd s fd
  reading : ∀ t ∈ s'.threads, t.pc ≠ .reading listenfd ∧ t.pc ≠ .closing listenfd

theorem Kept.live {s' : State} (h : Kept listenfd s s') (fd : Nat) :
    Live listenfd s' fd ↔ Live listenfd s fd := by
  unfold Live
  rw [h.conns]

theorem Kept.inv {s' : State} (h : Kept listenfd s s') (hi : Inv listenfd s) :
    Inv listenfd s' where
  dead := by
    intro fd hd
    rw [h.live] at hd
    have howners := h.owners fd
    obtain ⟨hreg, hhand⟩ := hi.dead fd hd
    have hnone : s'.registered fd = none := by
      by_contra hne
      exact hd (h.registered fd hne)
    simp only [OneshotServer.owners, armed, hnone, hreg, hhand] at howners
    exact ⟨hnone, by simpa using howners⟩
  opened := by
    intro fd hl
    rw [h.opened]
    exact hi.opened fd ((h.live fd).mp hl)
  reading := h.reading

theorem Kept.owned_congr {s' : State} (h : Kept listenfd s s') :
    Owned listenfd s' ↔ Owned listenfd s := by
  rw [owned_iff_owners, owned_iff_owners]
  refine forall_congr' fun fd => ?_
  rw [h.live, h.owners]

/-- A live descriptor that ends up with another number of owners than one. -/
theorem not_owned {s' : State} {fd : Nat} (hl : Live listenfd s' fd)
    (h : owners listenfd s' fd ≠ 1) : ¬Owned listenfd s' := by
  rw [owned_iff_owners]
  exact fun ho => h (ho fd hl)

/-! ## What a call does -/

variable {j : Nat} {t t' : Thread} {s' : State}

/-- What a thread has in hand is live and not armed. -/
theorem Owned.in_hand (ho : Owned listenfd s) (hi : Inv listenfd s) (hj : s.threads[j]? = some t)
    {fd : Nat} (hc : 0 < (t.holds listenfd).count fd) :
    Live listenfd s fd ∧ armed s fd = false ∧ handlers listenfd s fd = 1 := by
  have hle := count_le_handlers listenfd hj fd
  have hl := hi.live_of_handlers (Nat.lt_of_lt_of_le hc hle)
  rcases ho fd hl with ⟨_, hh⟩ | hh
  · omega
  · exact ⟨hl, hh⟩

theorem reading_set (hi : Inv listenfd s)
    (hpc : t'.pc ≠ .reading listenfd ∧ t'.pc ≠ .closing listenfd) :
    ∀ u ∈ s.threads.set j t', u.pc ≠ .reading listenfd ∧ u.pc ≠ .closing listenfd :=
  Threads.forall_set hi.reading hpc

/-- A thread moves; what it puts down is armed instead, what it takes up was armed. -/
theorem kept_move (hi : Inv listenfd s) (hj : s.threads[j]? = some t)
    (hthreads : s'.threads = s.threads.set j t') (hopened : s'.opened = s.opened)
    (hconns : s'.conns = s.conns)
    (howners : ∀ fd, (armed s' fd).toNat + (t'.holds listenfd).count fd =
      (armed s fd).toNat + (t.holds listenfd).count fd)
    (hreg : ∀ fd, s'.registered fd ≠ none → Live listenfd s fd)
    (hpc : t'.pc ≠ .reading listenfd ∧ t'.pc ≠ .closing listenfd) : Kept listenfd s s' where
  opened := hopened
  conns := hconns
  owners := by
    intro fd
    have hh := handlers_setThread listenfd hj hthreads fd
    have hfd := howners fd
    unfold owners
    omega
  registered := hreg
  reading := hthreads ▸ reading_set hi hpc

/-- A thread puts `fd` down without arming it. -/
theorem lost_move (ho : Owned listenfd s) (hi : Inv listenfd s) (hj : s.threads[j]? = some t)
    (hthreads : s'.threads = s.threads.set j t') (hconns : s'.conns = s.conns) {fd : Nat}
    (harmed : armed s' fd = armed s fd)
    (hc : (t'.holds listenfd).count fd < (t.holds listenfd).count fd) :
    ¬Owned listenfd s' := by
  obtain ⟨hl, hunarmed, hone⟩ := ho.in_hand hi hj (Nat.zero_lt_of_lt hc)
  have hh := handlers_setThread listenfd hj hthreads fd
  have hlive : Live listenfd s' fd := by
    unfold Live at hl ⊢
    rwa [hconns]
  refine not_owned hlive ?_
  unfold owners
  rw [harmed, hunarmed, Bool.toNat_false]
  omega

theorem armed_arm (fd k : Nat) (s : State) :
    armed (arm fd s) k = if k = fd then true else armed s k := by
  unfold armed arm
  by_cases hk : k = fd
  · subst hk
    simp
  · simp [hk]

theorem armed_unregister (fd k : Nat) (s : State) :
    armed (unregister fd s) k = if k = fd then false else armed s k := by
  unfold armed unregister
  by_cases hk : k = fd
  · subst hk
    simp
  · simp [hk]

theorem armed_disarm (events : List Event) (k : Nat) (s : State) :
    armed (disarm events s) k = if k ∈ events.map Event.fd then false else armed s k := by
  unfold armed disarm
  by_cases hk : k ∈ events.map Event.fd
  · simp only [hk, if_true]
    rfl
  · simp only [hk, if_false]

theorem count_singleton (fd k : Nat) : [fd].count k = if k = fd then 1 else 0 := by
  rw [List.count_singleton]
  by_cases hk : k = fd
  · subst hk
    simp
  · have hne : fd ≠ k := fun he => hk he.symm
    simp [hk, hne]

theorem kept_wait (hi : Inv listenfd s) (hj : s.threads[j]? = some ⟨[], .loop⟩)
    {events : List Event} (hnodup : (events.map Event.fd).Nodup)
    (harmed : ∀ e ∈ events, s.registered e.fd = some true) :
    Kept listenfd s (setThread j ⟨events, .loop⟩ (disarm events s)) := by
  have hmem : ∀ fd ∈ events.map Event.fd, s.registered fd = some true := by
    intro fd hfd
    obtain ⟨e, he, rfl⟩ := List.mem_map.mp hfd
    exact harmed e he
  have hset : (setThread j ⟨events, .loop⟩ (disarm events s)).threads =
      s.threads.set j ⟨events, .loop⟩ := rfl
  refine kept_move hi hj hset rfl rfl ?_ ?_ (by simp)
  · intro fd
    have hk : armed (setThread j ⟨events, .loop⟩ (disarm events s)) fd =
        if fd ∈ events.map Event.fd then false else armed s fd := armed_disarm events fd s
    simp only [hk, Thread.holds, Pc.holds, List.nil_append, List.map_nil, List.count_nil]
    by_cases hfd : fd ∈ events.map Event.fd
    · have hone : armed s fd = true := decide_eq_true (hmem fd hfd)
      rw [if_pos hfd, hone, List.count_eq_one_of_mem hnodup hfd]
      rfl
    · rw [if_neg hfd, List.count_eq_zero_of_not_mem hfd]
  · intro fd hreg
    simp only [setThread, disarm] at hreg
    by_cases hfd : fd ∈ events.map Event.fd
    · exact hi.live_of_registered (by rw [hmem fd hfd]; simp)
    · rw [if_neg hfd] at hreg
      exact hi.live_of_registered hreg

theorem turn_holds (e : Event) : (turn listenfd e).holds listenfd = [e.fd] := by
  unfold turn
  split
  · rfl
  · split
    · rename_i he
      rw [he]
      rfl
    · rfl

theorem turn_pc (e : Event) :
    turn listenfd e ≠ .reading listenfd ∧ turn listenfd e ≠ .closing listenfd := by
  unfold turn
  split
  · simp
  · split
    · simp
    · rename_i hne
      simp [hne]

/-- A move that neither changes what the thread has in hand nor what epoll has registered. -/
theorem kept_same (hi : Inv listenfd s) (hj : s.threads[j]? = some t)
    (hholds : ∀ fd, (t'.holds listenfd).count fd = (t.holds listenfd).count fd)
    (hpc : t'.pc ≠ .reading listenfd ∧ t'.pc ≠ .closing listenfd) :
    Kept listenfd s (setThread j t' s) :=
  kept_move hi hj rfl rfl rfl (fun fd => by rw [hholds]; rfl)
    (fun _ hreg => hi.live_of_registered hreg) hpc

/-- The thread puts down `fd`, and `fd` alone, and arms it. -/
theorem kept_arm (ho : Owned listenfd s) (hi : Inv listenfd s) (hj : s.threads[j]? = some t)
    {fd : Nat}
    (hholds : ∀ k, (t.holds listenfd).count k = (t'.holds listenfd).count k + [fd].count k)
    (hpc : t'.pc ≠ .reading listenfd ∧ t'.pc ≠ .closing listenfd) :
    Kept listenfd s (setThread j t' (arm fd s)) := by
  have hone : 0 < (t.holds listenfd).count fd := by
    rw [hholds, List.count_singleton_self]
    omega
  obtain ⟨hl, hunarmed, _⟩ := ho.in_hand hi hj hone
  refine kept_move hi hj rfl rfl rfl ?_ ?_ hpc
  · intro k
    have hk : armed (setThread j t' (arm fd s)) k = if k = fd then true else armed s k :=
      armed_arm fd k s
    rw [hk, hholds, count_singleton]
    by_cases he : k = fd
    · subst he
      simp [hunarmed]
      omega
    · simp [he]
  · intro k hreg
    simp only [setThread, arm] at hreg
    by_cases he : k = fd
    · exact he ▸ hl
    · rw [Function.update_of_ne he] at hreg
      exact hi.live_of_registered hreg

/-! ## Opening and closing -/

theorem live_openFd (listenfd : Nat) (s : State) (j : Nat) (t' : Thread) (connfd k : Nat) :
    Live listenfd (setThread j t' (openFd connfd s)) k ↔ k = connfd ∨ Live listenfd s k := by
  simp only [Live, setThread, openFd, Function.update_apply]
  by_cases hk : k = connfd
  · simp [hk]
  · simp [hk]

theorem live_closeFd (s : State) (j : Nat) (t' : Thread) {fd : Nat} (hfd : fd ≠ listenfd)
    (k : Nat) :
    Live listenfd (setThread j t' (closeFd fd s)) k ↔ k ≠ fd ∧ Live listenfd s k := by
  simp only [Live, setThread, closeFd, unregister, Function.update_apply]
  by_cases hk : k = fd
  · subst hk
    simp [hfd]
  · simp [hk]

/-- The thread that has opened a descriptor has it in hand. -/
theorem handlers_openFd (hj : s.threads[j]? = some t) {connfd : Nat}
    (hholds : ∀ k, (t'.holds listenfd).count k = (t.holds listenfd).count k + [connfd].count k)
    (k : Nat) :
    handlers listenfd (setThread j t' (openFd connfd s)) k =
      handlers listenfd s k + [connfd].count k := by
  have hset : (setThread j t' (openFd connfd s)).threads = s.threads.set j t' := rfl
  have hh := handlers_setThread listenfd hj hset k
  have hk := hholds k
  omega

theorem handlers_closeFd (hj : s.threads[j]? = some t) {fd : Nat}
    (hholds : ∀ k, (t.holds listenfd).count k = (t'.holds listenfd).count k + [fd].count k)
    (k : Nat) :
    handlers listenfd (setThread j t' (closeFd fd s)) k + [fd].count k =
      handlers listenfd s k := by
  have hset : (setThread j t' (closeFd fd s)).threads = s.threads.set j t' := rfl
  have hh := handlers_setThread listenfd hj hset k
  have hk := hholds k
  omega

/-- `accept` gives the thread a descriptor nobody had. -/
theorem opened_owned (ho : Owned listenfd s) (hi : Inv listenfd s) (hj : s.threads[j]? = some t)
    {connfd : Nat} (hfree : s.opened connfd = false)
    (hholds : ∀ k, (t'.holds listenfd).count k = (t.holds listenfd).count k + [connfd].count k)
    (hpc : t'.pc ≠ .reading listenfd ∧ t'.pc ≠ .closing listenfd) :
    Owned listenfd (setThread j t' (openFd connfd s)) ∧
      Inv listenfd (setThread j t' (openFd connfd s)) := by
  have hdead : ¬Live listenfd s connfd := by
    intro hl
    rw [hi.opened connfd hl] at hfree
    cases hfree
  obtain ⟨hnone, hzero⟩ := hi.dead connfd hdead
  have hlive := live_openFd listenfd s j t' connfd
  have hhand := handlers_openFd hj hholds
  constructor
  · rw [owned_iff_owners] at ho ⊢
    intro k hk
    have harmed : armed (setThread j t' (openFd connfd s)) k = armed s k := rfl
    unfold owners
    rw [harmed, hhand, count_singleton]
    by_cases he : k = connfd
    · subst he
      simp [armed, hnone, hzero]
    · have hone := ho k (((hlive k).mp hk).resolve_left he)
      unfold owners at hone
      rw [if_neg he]
      exact hone
  · have hreading := reading_set (j := j) hi hpc
    refine ⟨?_, ?_, hreading⟩
    · intro k hk
      rw [hlive, not_or] at hk
      obtain ⟨hreg, hh⟩ := hi.dead k hk.2
      refine ⟨hreg, ?_⟩
      rw [hhand, hh, count_singleton, if_neg hk.1]
    · intro k hk
      simp only [setThread, openFd, Function.update_apply]
      by_cases he : k = connfd
      · rw [if_pos he]
      · rw [if_neg he]
        exact hi.opened k (((hlive k).mp hk).resolve_left he)

/-- A thread closes the connection it has in hand; from then on nobody has it. -/
theorem closed_owned (ho : Owned listenfd s) (hi : Inv listenfd s) (hj : s.threads[j]? = some t)
    {fd : Nat} (hfd : fd ≠ listenfd)
    (hholds : ∀ k, (t.holds listenfd).count k = (t'.holds listenfd).count k + [fd].count k)
    (hpc : t'.pc ≠ .reading listenfd ∧ t'.pc ≠ .closing listenfd) :
    Owned listenfd (setThread j t' (closeFd fd s)) ∧
      Inv listenfd (setThread j t' (closeFd fd s)) := by
  have hlive := live_closeFd s j t' hfd
  have hhand := handlers_closeFd hj hholds
  have hreg : ∀ k, (setThread j t' (closeFd fd s)).registered k =
      if k = fd then none else s.registered k := by
    intro k
    simp only [setThread, closeFd, unregister, Function.update_apply]
  constructor
  · rw [owned_iff_owners] at ho ⊢
    intro k hk
    obtain ⟨hne, hl⟩ := (hlive k).mp hk
    have hone := ho k hl
    have hh := hhand k
    rw [count_singleton, if_neg hne] at hh
    have harmed : armed (setThread j t' (closeFd fd s)) k = armed s k := by
      unfold armed
      rw [hreg, if_neg hne]
    unfold owners at hone ⊢
    rw [harmed]
    omega
  · have hreading := reading_set (j := j) hi hpc
    refine ⟨?_, ?_, hreading⟩
    · intro k hk
      rw [hlive] at hk
      have hh := hhand k
      rw [count_singleton] at hh
      rw [hreg]
      by_cases he : k = fd
      · subst he
        have hone : 0 < (t.holds listenfd).count k := by
          rw [hholds, List.count_singleton_self]
          omega
        obtain ⟨_, _, hhone⟩ := ho.in_hand hi hj hone
        rw [if_pos rfl] at hh
        exact ⟨if_pos rfl, by omega⟩
      · obtain ⟨hnone, hzero⟩ := hi.dead k fun hl => hk ⟨he, hl⟩
        rw [if_neg he] at hh
        exact ⟨by rw [if_neg he, hnone], by omega⟩
    · intro k hk
      obtain ⟨hne, hl⟩ := (hlive k).mp hk
      simp only [setThread, closeFd, unregister, Function.update_apply, if_neg hne]
      exact hi.opened k hl

/-- Closing the listening socket leaves it without an owner. -/
theorem close_listenfd (ho : Owned listenfd s) (hi : Inv listenfd s)
    (hj : s.threads[j]? = some t)
    (hholds : ∀ k, (t.holds listenfd).count k = (t'.holds listenfd).count k + [listenfd].count k) :
    ¬Owned listenfd (setThread j t' (closeFd listenfd s)) := by
  have hk := hholds listenfd
  rw [List.count_singleton_self] at hk
  have hpos : 0 < (t.holds listenfd).count listenfd := by omega
  obtain ⟨_, _, hone⟩ := ho.in_hand hi hj hpos
  have hset : (setThread j t' (closeFd listenfd s)).threads = s.threads.set j t' := rfl
  have hh := handlers_setThread listenfd hj hset listenfd
  have hlive : Live listenfd (setThread j t' (closeFd listenfd s)) listenfd := .inl rfl
  refine not_owned hlive ?_
  have harmed : armed (setThread j t' (closeFd listenfd s)) listenfd = false := by
    simp [armed, setThread, closeFd, unregister]
  unfold owners
  rw [harmed, Bool.toNat_false]
  omega

/-! ## Every call -/

/-- A call by a thread at `t` keeps the owners just when it is careful; while they are kept, so is
the invariant. -/
def Exact (listenfd : Nat) (s' : State) (Q : Prop) : Prop :=
  (Owned listenfd s' ↔ Q) ∧ (Owned listenfd s' → Inv listenfd s')

theorem Kept.exact {Q : Prop} (h : Kept listenfd s s') (ho : Owned listenfd s)
    (hi : Inv listenfd s) (hq : Q) : Exact listenfd s' Q :=
  ⟨iff_of_true (h.owned_congr.mpr ho) hq, fun _ => h.inv hi⟩

theorem exact_lost {Q : Prop} (h : ¬Owned listenfd s') (hq : ¬Q) : Exact listenfd s' Q :=
  ⟨iff_of_false h hq, fun ho => absurd ho h⟩

theorem exact_of_both {Q : Prop} (h : Owned listenfd s' ∧ Inv listenfd s') (hq : Q) :
    Exact listenfd s' Q :=
  ⟨iff_of_true h.1 hq, fun _ => h.2⟩

variable {batch : List Event} {pc pc' : Pc} {fd : Nat}

/-- A thread in its `for` loop puts down what its place does. -/
theorem puts_down
    (h : ∀ k, (pc.holds listenfd).count k = (pc'.holds listenfd).count k + [fd].count k)
    (k : Nat) : ((⟨batch, pc⟩ : Thread).holds listenfd).count k =
      ((⟨batch, pc'⟩ : Thread).holds listenfd).count k + [fd].count k := by
  have hk := h k
  simp only [Thread.holds, List.count_append]
  omega

theorem puts_down_add (connfd k : Nat) : ((Pc.adding connfd).holds listenfd).count k =
    (Pc.accepting.holds listenfd).count k + [connfd].count k := by
  simp only [Pc.holds, List.count_cons, List.count_nil]
  omega

theorem puts_down_one (listenfd fd k : Nat) :
    [fd].count k = (Pc.loop.holds listenfd).count k + [fd].count k :=
  (Nat.zero_add _).symm

/-- Back at the loop the thread has put down what its place held. -/
theorem loop_lt (h : fd ∈ pc.holds listenfd) : ((⟨batch, .loop⟩ : Thread).holds listenfd).count fd <
    ((⟨batch, pc⟩ : Thread).holds listenfd).count fd := by
  have hpos := List.count_pos_iff.mpr h
  have hloop : (Pc.loop.holds listenfd).count fd = 0 := rfl
  simp only [Thread.holds, List.count_append]
  omega

/-- The thread goes back to the loop without having armed what it held. -/
theorem lost_loop (ho : Owned listenfd s) (hi : Inv listenfd s)
    (hj : s.threads[j]? = some ⟨batch, pc⟩) (h : fd ∈ pc.holds listenfd) :
    ¬Owned listenfd (setThread j ⟨batch, .loop⟩ s) :=
  have hset : (setThread j ⟨batch, .loop⟩ s).threads = s.threads.set j ⟨batch, .loop⟩ := rfl
  lost_move ho hi hj hset rfl rfl (loop_lt h)

theorem accept_exact (ho : Owned listenfd s) (hi : Inv listenfd s)
    (hj : s.threads[j]? = some ⟨batch, .accepting⟩) (result : Accepted)
    (hok : enabled s ⟨batch, .accepting⟩ (.accept result) = true) :
    Exact listenfd (act listenfd j ⟨batch, .accepting⟩ s (.accept result))
      (CarefulAct listenfd s ⟨batch, .accepting⟩ (.accept result)) := by
  cases result with
  | again =>
    have hkept : Kept listenfd s (setThread j ⟨batch, .rearming listenfd⟩ s) :=
      kept_same hi hj (fun _ => rfl) (by simp)
    exact hkept.exact ho hi (by simp [CarefulAct])
  | error =>
    exact exact_lost (lost_loop ho hi hj (List.mem_singleton_self listenfd)) (by simp [CarefulAct])
  | conn connfd =>
    have hfree : s.opened connfd = false := by
      simp only [enabled, decide_eq_true_eq] at hok
      exact hok.2.1
    have hboth : Owned listenfd (setThread j ⟨batch, .adding connfd⟩ (openFd connfd s)) ∧
        Inv listenfd (setThread j ⟨batch, .adding connfd⟩ (openFd connfd s)) :=
      opened_owned ho hi hj hfree (puts_down (puts_down_add connfd)) (by simp)
    exact exact_of_both hboth (by simp [CarefulAct])

theorem add_exact (ho : Owned listenfd s) (hi : Inv listenfd s) {connfd : Nat}
    (hj : s.threads[j]? = some ⟨batch, .adding connfd⟩) (success : Bool) :
    Exact listenfd (act listenfd j ⟨batch, .adding connfd⟩ s (.add success))
      (CarefulAct listenfd s ⟨batch, .adding connfd⟩ (.add success)) := by
  cases success with
  | true =>
    have hkept : Kept listenfd s (setThread j ⟨batch, .accepting⟩ (arm connfd s)) :=
      kept_arm ho hi hj (puts_down (puts_down_add connfd)) (by simp)
    exact hkept.exact ho hi rfl
  | false =>
    exact exact_lost (lost_loop ho hi hj (List.mem_cons_self (a := connfd))) (by simp [CarefulAct])

theorem mod_exact (ho : Owned listenfd s) (hi : Inv listenfd s)
    (hj : s.threads[j]? = some ⟨batch, .rearming fd⟩) (success : Bool) :
    Exact listenfd (act listenfd j ⟨batch, .rearming fd⟩ s (.mod success))
      (CarefulAct listenfd s ⟨batch, .rearming fd⟩ (.mod success)) := by
  cases success with
  | true =>
    have hkept : Kept listenfd s (setThread j ⟨batch, .loop⟩ (arm fd s)) :=
      kept_arm ho hi hj (puts_down (puts_down_one listenfd fd)) (by simp)
    exact hkept.exact ho hi rfl
  | false =>
    exact exact_lost (lost_loop ho hi hj (List.mem_singleton_self fd)) (by simp [CarefulAct])

theorem read_exact (ho : Owned listenfd s) (hi : Inv listenfd s) {connfd : Nat}
    (hj : s.threads[j]? = some ⟨batch, .reading connfd⟩) (result : ReadResult) :
    Exact listenfd (act listenfd j ⟨batch, .reading connfd⟩ s (.read result))
      (CarefulAct listenfd s ⟨batch, .reading connfd⟩ (.read result)) := by
  have hne : connfd ≠ listenfd := by
    rintro rfl
    exact (hi.reading _ (List.mem_of_getElem? hj)).1 rfl
  have hclosing : Kept listenfd s (setThread j ⟨batch, .closing connfd⟩ s) :=
    kept_same hi hj (fun _ => rfl) ⟨by simp, by simpa using hne⟩
  cases result with
  | data written =>
    have hkept : Kept listenfd s { s with aborted := !written } :=
      ⟨rfl, rfl, fun _ => rfl, fun _ hreg => hi.live_of_registered hreg, hi.reading⟩
    exact hkept.exact ho hi trivial
  | again =>
    have hkept : Kept listenfd s (setThread j ⟨batch, .rearming connfd⟩ s) :=
      kept_same hi hj (fun _ => rfl) (by simp)
    exact hkept.exact ho hi trivial
  | eof => exact hclosing.exact ho hi trivial
  | error => exact hclosing.exact ho hi trivial

theorem close_exact (ho : Owned listenfd s) (hi : Inv listenfd s) (hj : s.threads[j]? = some t)
    (hok : enabled s t .close = true) :
    Exact listenfd (act listenfd j t s .close) (CarefulAct listenfd s t .close) := by
  obtain ⟨batch, pc⟩ := t
  cases pc with
  | closing fd =>
    have hne : fd ≠ listenfd := by
      rintro rfl
      exact (hi.reading _ (List.mem_of_getElem? hj)).2 rfl
    have hboth : Owned listenfd (setThread j ⟨batch, .loop⟩ (closeFd fd s)) ∧
        Inv listenfd (setThread j ⟨batch, .loop⟩ (closeFd fd s)) :=
      closed_owned ho hi hj hne (puts_down (puts_down_one listenfd fd)) (by simp)
    exact exact_of_both hboth (by simp [CarefulAct])
  | erring fd =>
    by_cases hfd : fd = listenfd
    · subst hfd
      have hlost : ¬Owned fd (setThread j ⟨batch, .deleting fd⟩ (closeFd fd s)) :=
        close_listenfd ho hi hj (puts_down (puts_down_one fd fd))
      exact exact_lost hlost (by simp [CarefulAct])
    · have hboth : Owned listenfd (setThread j ⟨batch, .deleting fd⟩ (closeFd fd s)) ∧
          Inv listenfd (setThread j ⟨batch, .deleting fd⟩ (closeFd fd s)) :=
        closed_owned ho hi hj hfd (puts_down (puts_down_one listenfd fd)) (by simp)
      exact exact_of_both hboth (by simp [CarefulAct, hfd])
  | loop => cases hok
  | accepting => cases hok
  | adding connfd => cases hok
  | rearming fd => cases hok
  | reading connfd => cases hok
  | deleting fd => cases hok

/-- `EPOLL_CTL_DEL` comes after the `close`, so the number may stand for another connection by
then. -/
theorem del_exact (ho : Owned listenfd s) (hi : Inv listenfd s)
    (hj : s.threads[j]? = some ⟨batch, .deleting fd⟩) (success : Bool) :
    Exact listenfd (act listenfd j ⟨batch, .deleting fd⟩ s (.del success))
      (CarefulAct listenfd s ⟨batch, .deleting fd⟩ (.del success)) := by
  cases success with
  | false =>
    have hkept : Kept listenfd s (setThread j ⟨batch, .loop⟩ s) :=
      kept_same hi hj (fun _ => rfl) (by simp)
    exact hkept.exact ho hi (by simp [CarefulAct])
  | true =>
    have hset : (setThread j ⟨batch, .loop⟩ (unregister fd s)).threads =
        s.threads.set j ⟨batch, .loop⟩ := rfl
    have hreg : ∀ k, armed (setThread j ⟨batch, .loop⟩ (unregister fd s)) k =
        if k = fd then false else armed s k := fun k => armed_unregister fd k s
    cases harmed : armed s fd with
    | false =>
      have hkept : Kept listenfd s (setThread j ⟨batch, .loop⟩ (unregister fd s)) := by
        refine kept_move hi hj hset rfl rfl ?_ ?_ (by simp)
        · intro k
          rw [hreg]
          by_cases hk : k = fd
          · subst hk
            rw [if_pos rfl, harmed]
            rfl
          · rw [if_neg hk]
            rfl
        · intro k hk
          refine hi.live_of_registered fun hnone => hk ?_
          simp only [setThread, unregister, Function.update_apply]
          split
          · rfl
          · exact hnone
      exact hkept.exact ho hi (by simpa [CarefulAct] using harmed)
    | true =>
      have hlive : Live listenfd s fd := by
        refine hi.live_of_registered fun hnone => ?_
        simp [armed, hnone] at harmed
      have hzero : handlers listenfd s fd = 0 := by
        rcases ho fd hlive with ⟨_, hh⟩ | ⟨hf, _⟩
        · exact hh
        · rw [hf] at harmed
          cases harmed
      have hh := handlers_setThread listenfd hj hset fd
      have hsame : ((⟨batch, .deleting fd⟩ : Thread).holds listenfd).count fd =
          ((⟨batch, .loop⟩ : Thread).holds listenfd).count fd := rfl
      have hlost : ¬Owned listenfd (setThread j ⟨batch, .loop⟩ (unregister fd s)) := by
        refine not_owned (show Live listenfd (setThread j _ (unregister fd s)) fd from hlive) ?_
        unfold owners
        rw [hreg, if_pos rfl, Bool.toNat_false]
        omega
      exact exact_lost hlost (by simp [CarefulAct, harmed])

theorem act_exact (ho : Owned listenfd s) (hi : Inv listenfd s) (hj : s.threads[j]? = some t)
    {a : Act} (hok : enabled s t a = true) :
    Exact listenfd (act listenfd j t s a) (CarefulAct listenfd s t a) := by
  cases a with
  | wait events =>
    simp only [enabled, decide_eq_true_eq] at hok
    obtain ⟨rfl, _, hnodup, harmed⟩ := hok
    exact (kept_wait hi hj hnodup harmed).exact ho hi trivial
  | next =>
    obtain ⟨batch, pc⟩ := t
    simp only [enabled, decide_eq_true_eq] at hok
    obtain ⟨rfl, hne⟩ := hok
    obtain ⟨e, rest, rfl⟩ := List.exists_cons_of_ne_nil hne
    refine (kept_same hi hj (fun fd => ?_) (turn_pc e)).exact ho hi trivial
    rw [Thread.holds, turn_holds]
    rfl
  | accept result =>
    obtain ⟨batch, pc⟩ := t
    have hpc : pc = .accepting := by
      cases result <;> simp only [enabled, decide_eq_true_eq] at hok
      · exact hok
      · exact hok
      · exact hok.1
    subst hpc
    exact accept_exact ho hi hj result hok
  | add success =>
    obtain ⟨batch, pc⟩ := t
    cases pc with
    | adding connfd => exact add_exact ho hi hj success
    | _ => cases hok
  | mod success =>
    obtain ⟨batch, pc⟩ := t
    cases pc with
    | rearming fd => exact mod_exact ho hi hj success
    | _ => cases hok
  | read result =>
    obtain ⟨batch, pc⟩ := t
    cases pc with
    | reading connfd => exact read_exact ho hi hj result
    | _ => cases hok
  | close => exact close_exact ho hi hj hok
  | del success =>
    obtain ⟨batch, pc⟩ := t
    cases pc with
    | deleting fd => exact del_exact ho hi hj success
    | _ => cases hok

theorem step_exact (ho : Owned listenfd s) (hi : Inv listenfd s) {i : Step}
    (hok : (machine listenfd).ok s i) :
    Exact listenfd ((machine listenfd).step s i) (Careful listenfd s i) := by
  obtain ⟨t, hj, hen⟩ := (Option.any_eq_true ..).mp hok.2
  have hexact := act_exact ho hi hj hen
  have hstep : (machine listenfd).step s i = act listenfd i.thread t s i.act := by
    simp [machine, step, hj]
  have hcareful : Careful listenfd s i ↔ CarefulAct listenfd s t i.act := by
    simp [Careful, hj]
  rwa [hstep, hcareful]

end

/-! ## Runs -/

theorem start_handlers (g : Setup) (threadNum : Nat) (fd : Nat) :
    handlers g.listenfd (start g threadNum) fd = 0 := by
  unfold handlers start
  simp [Thread.holds, Pc.holds]

theorem start_inv (g : Setup) (threadNum : Nat) : Inv g.listenfd (start g threadNum) where
  dead := by
    intro fd hd
    have hne : fd ≠ g.listenfd := fun he => hd (.inl he)
    exact ⟨by simp [start, hne], start_handlers g threadNum fd⟩
  opened := by
    intro fd hl
    have he : fd = g.listenfd := by simpa [Live, start] using hl
    exact he ▸ g.listening
  reading := by
    intro t ht
    have he := List.eq_of_mem_replicate ht
    simp [he]

theorem start_owned (g : Setup) (threadNum : Nat) : Owned g.listenfd (start g threadNum) := by
  intro fd hl
  have he : fd = g.listenfd := by simpa [Live, start] using hl
  subst he
  exact .inl ⟨by simp [armed, start], start_handlers g threadNum g.listenfd⟩

/-- In every state of a run the listening socket and every open connection have one owner, just
when every call of the run is careful. -/
theorem oneHolder_iff (g : Setup) (threadNum : Nat) (is : List Step)
    (hv : (machine g.listenfd).Valid (start g threadNum) is) :
    (machine g.listenfd).Always (Owned g.listenfd) (start g threadNum) is ↔
      (machine g.listenfd).Each (Careful g.listenfd) (start g threadNum) is :=
  Machine.always_iff_each_of (fun _ _ hi hok ho => (step_exact ho hi hok).1)
    (fun _ _ hi hok ho ho' => (step_exact ho hi hok).2 ho') (start_inv g threadNum)
    (start_owned g threadNum) hv

/-- Descriptor 3 listens, 4 is the epoll instance. -/
def setup3 : Setup := ⟨3, fun fd => decide (fd ≤ 4), rfl⟩

def readable (fd : Nat) : Event := ⟨fd, ⟨false, false, true⟩⟩

/-- One thread accepts a client, another serves it. -/
def twoThreads : List Step :=
  [⟨0, .wait [readable 3]⟩, ⟨0, .next⟩, ⟨0, .accept (.conn 5)⟩, ⟨0, .add true⟩,
    ⟨1, .wait [readable 5]⟩, ⟨0, .accept .again⟩, ⟨1, .next⟩, ⟨1, .read (.data true)⟩,
    ⟨0, .mod true⟩, ⟨1, .read .eof⟩, ⟨1, .close⟩]

theorem oneHolder_iff_twoThreads :
    (machine 3).Always (Owned 3) (start setup3 2) twoThreads ↔
      (machine 3).Each (Careful 3) (start setup3 2) twoThreads :=
  oneHolder_iff setup3 2 twoThreads (by decide)

/-- `accept` fails with another error than EAGAIN. -/
def acceptFails : List Step :=
  [⟨0, .wait [readable 3]⟩, ⟨0, .next⟩, ⟨0, .accept .error⟩]

theorem not_owned_acceptFails :
    (machine 3).Valid (start setup3 2) acceptFails ∧
      ¬(machine 3).Always (Owned 3) (start setup3 2) acceptFails := by
  refine ⟨by decide, fun h => ?_⟩
  have harmed : armed ((machine 3).run (start setup3 2) acceptFails) 3 = false := by decide
  have hhand : handlers 3 ((machine 3).run (start setup3 2) acceptFails) 3 = 0 := by decide
  rcases h.last 3 (.inl rfl) with ⟨ha, _⟩ | ⟨_, hh⟩
  · rw [harmed] at ha
    cases ha
  · rw [hhand] at hh
    cases hh

/-- The number of a connection closed in the error branch is reused before `EPOLL_CTL_DEL`. -/
def reused : List Step :=
  twoThreads.take 4 ++
    [⟨1, .wait [⟨5, ⟨true, false, false⟩⟩]⟩, ⟨1, .next⟩, ⟨1, .close⟩, ⟨0, .accept (.conn 5)⟩,
      ⟨0, .add true⟩, ⟨1, .del true⟩]

example : (machine 3).Valid (start setup3 2) reused ∧
    ((machine 3).run (start setup3 2) reused).conns 5 = true ∧
    armed ((machine 3).run (start setup3 2) reused) 5 = false ∧
    handlers 3 ((machine 3).run (start setup3 2) reused) 5 = 0 := by decide

end OneshotServer
end Unpvol1
