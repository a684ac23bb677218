import Unpvol1.Http.MainLoop

/-!
# Http.OneOwner

Who owns a connection of the server: epoll while it is armed, the queue of the pool, or the thread
that handles it.

* `OneOwner` — exactly one of the three. `Owned` — so it is for every open connection.
* `view`     — what a state says about one descriptor. `Fine` — the invariant of a view: a
  connection never has two owners.
* `Passed`   — a handler that has a connection in hand closes it, or passes it on to one owner, and
  changes the view of no other. `handleClient_passed`, `process_passed` — so do both threads' calls,
  but for `handleClient_full`.
-/

namespace Unpvol1
namespace MainLoop

open HttpConn (HttpCode)

/-- `fd` is an open connection: it was not open when `main` entered its loop. -/
def Client (g : Setup) (s : Server) (fd : Int) : Prop :=
  s.kernel.opened fd = true ∧ g.opened fd = false

def armed (s : Server) (fd : Int) : Bool := (s.kernel.interest fd).any Registered.enabled

def queued (s : Server) (fd : Int) : Nat := s.threads.pool.workqueue.count (some fd)

/-- `main` handles what is left of its batch, a worker what it has popped. -/
def handlers (s : Server) (fd : Int) : Nat :=
  (s.batch.map Event.fd).count fd + s.threads.workers.count (.processing fd)

def OneOwner (s : Server) (fd : Int) : Prop :=
  (armed s fd = true ∧ queued s fd = 0 ∧ handlers s fd = 0) ∨
  (armed s fd = false ∧ queued s fd = 1 ∧ handlers s fd = 0) ∨
  (armed s fd = false ∧ queued s fd = 0 ∧ handlers s fd = 1)

def Owned (g : Setup) (s : Server) : Prop := ∀ fd, Client g s fd → OneOwner s fd

/-- The event is one of a client whose request `main` appends. -/
def Appends (g : Setup) (s : Server) (e : Event) (r : Replies) : Prop :=
  e.fd ≠ g.listenfd ∧ e.down = false ∧ e.epollin = true ∧
    (read s e.fd r.recvs).map Prod.fst = some true

/-- A request that is appended finds the queue no longer than `max_requests`. -/
def Roomy (g : Setup) (s : Server) : Step → Prop
  | .event r => ∀ e ∈ s.batch.head?, Appends g s e r →
      s.threads.pool.workqueue.length ≤ s.threads.pool.maxRequests
  | _ => True

/-! ## Views -/

/-- What a state says about one descriptor. -/
structure View where
  registered : Option Registered
  opened : Bool
  sockfd : Int
  queued : Nat
  reported : Nat
  processing : Nat

def view (s : Server) (fd : Int) : View where
  registered := s.kernel.interest fd
  opened := s.kernel.opened fd
  sockfd := (s.users fd).sockfd
  queued := queued s fd
  reported := (s.batch.map Event.fd).count fd
  processing := s.threads.workers.count (.processing fd)

namespace View

def armed (v : View) : Bool := v.registered.any Registered.enabled

def owners (v : View) : Nat := v.armed.toNat + v.queued + (v.reported + v.processing)

def Client (g : Setup) (fd : Int) (v : View) : Prop := v.opened = true ∧ g.opened fd = false

theorem owners_armed {v : View} (ha : v.armed = true) (hq : v.queued = 0)
    (hh : v.reported + v.processing = 0) : v.owners = 1 := by
  rw [owners, ha, hq, hh]
  rfl

theorem owners_unarmed {v : View} (ha : v.armed = false)
    (hh : v.reported + v.processing = 0) : v.owners = v.queued := by
  rw [owners, ha, hh]
  simp

end View

theorem owners_view (s : Server) (fd : Int) :
    (view s fd).owners = (armed s fd).toNat + queued s fd + handlers s fd := rfl

theorem handlers_view (s : Server) (fd : Int) :
    handlers s fd = (view s fd).reported + (view s fd).processing := rfl

theorem oneOwner_iff (s : Server) (fd : Int) : OneOwner s fd ↔ (view s fd).owners = 1 := by
  rw [owners_view, OneOwner]
  cases armed s fd <;> simp <;> omega

/-- The invariant of a view. -/
structure Fine (g : Setup) (fd : Int) (v : View) : Prop where
  setup : g.opened fd = true → v.opened = true
  nonneg : v.opened = true → 0 ≤ fd
  own : v.Client g fd → v.sockfd = fd ∧ v.owners ≤ 1 ∧
    ∃ r, v.registered = some r ∧ r.oneshot = true
  stray : ¬v.Client g fd → v.queued = 0 ∧ v.processing = 0 ∧
    (fd ≠ g.listenfd → v.registered = none ∧ v.reported = 0)

structure Inv (g : Setup) (s : Server) : Prop where
  fine : ∀ fd, Fine g fd (view s fd)
  asked : ∀ e ∈ s.batch, (e.down || e.epollin || e.epollout) = true

theorem view_setUser (s : Server) {fd : Int} {u : User} (h : u.sockfd = (s.users fd).sockfd) :
    view (s.setUser fd u) = view s := by
  funext d
  by_cases hd : d = fd
  · subst hd
    simp [view, Server.setUser, h, queued]
  · simp [view, Server.setUser, hd, queued]

theorem view_rearm {s : Server} {fd : Int} (hs : (s.users fd).sockfd = fd)
    (hr : (s.kernel.interest fd).isSome = true) (ev : Ready) :
    view (s.rearm fd ev) = Function.update (view s) fd
      { view s fd with registered := some { ev := ev, oneshot := true, enabled := true } } := by
  funext d
  by_cases hd : d = fd
  · subst hd
    simp [view, Server.rearm, modfd, hs, queued, Kernel.ctlMod_interest_self _ hr]
  · simp [view, Server.rearm, modfd, hs, queued, hd, Kernel.ctlMod_interest_of_ne _ _ hd]

theorem view_closeConn {s : Server} {fd : Int} (hs : (s.users fd).sockfd = fd) (hfd : fd ≠ -1) :
    view (s.closeConn fd) = Function.update (view s) fd
      { view s fd with registered := none, opened := false, sockfd := -1 } := by
  funext d
  by_cases hd : d = fd
  · subst hd
    simp [view, Server.closeConn, removefd, hs, queued, hfd]
  · simp [view, Server.closeConn, removefd, hs, queued, hd, hfd]

/-! ## What a handler does with its connection -/

/-- An open connection that is not queued and that no thread is left to handle. -/
structure Loose (g : Setup) (s : Server) (fd : Int) : Prop where
  client : Client g s fd
  nonneg : 0 ≤ fd
  sockfd : (s.users fd).sockfd = fd
  registered : ∃ r, s.kernel.interest fd = some r ∧ r.oneshot = true
  queued : queued s fd = 0
  handlers : handlers s fd = 0

/-- The view of the connection alone has changed; it is closed, or has an owner again. -/
structure Passed (g : Setup) (fd : Int) (s s' : Server) : Prop where
  view : ∃ v, view s' = Function.update (view s) fd v ∧ Fine g fd v ∧
    (v.Client g fd → v.owners = 1)
  batch : s'.batch = s.batch

theorem Loose.fine {g : Setup} {s : Server} {fd : Int} (h : Loose g s fd) {v : View}
    (hv : v.opened = true) (hs : v.sockfd = fd) (ho : v.owners ≤ 1)
    (hr : ∃ r, v.registered = some r ∧ r.oneshot = true) : Fine g fd v where
  setup := fun _ => hv
  nonneg := fun _ => h.nonneg
  own := fun _ => ⟨hs, ho, hr⟩
  stray := fun hc => absurd ⟨hv, h.client.2⟩ hc

theorem Loose.congr {g : Setup} {s s' : Server} {fd : Int} (h : Loose g s fd)
    (hv : MainLoop.view s' fd = MainLoop.view s fd) : Loose g s' fd := by
  have hq : MainLoop.queued s' fd = MainLoop.queued s fd := congrArg View.queued hv
  have hr : s'.kernel.interest fd = s.kernel.interest fd := congrArg View.registered hv
  have ho : s'.kernel.opened fd = s.kernel.opened fd := congrArg View.opened hv
  have hs : (s'.users fd).sockfd = (s.users fd).sockfd := congrArg View.sockfd hv
  have hh : MainLoop.handlers s' fd = MainLoop.handlers s fd := by
    rw [handlers_view, handlers_view, hv]
  exact ⟨⟨ho.trans h.client.1, h.client.2⟩, h.nonneg, hs.trans h.sockfd, hr ▸ h.registered,
    hq.trans h.queued, hh.trans h.handlers⟩

theorem Passed.of_view {g : Setup} {fd : Int} {s s₁ s' : Server} {v : View}
    (hv : MainLoop.view s₁ = Function.update (MainLoop.view s) fd v) (hb : s₁.batch = s.batch)
    (h : Passed g fd s₁ s') : Passed g fd s s' := by
  obtain ⟨v', hv', hfine⟩ := h.view
  refine ⟨⟨v', ?_, hfine⟩, h.batch.trans hb⟩
  rw [hv', hv, Function.update_idem]

theorem Passed.of_same {g : Setup} {fd : Int} {s s₁ s' : Server}
    (hv : MainLoop.view s₁ = MainLoop.view s) (hb : s₁.batch = s.batch)
    (h : Passed g fd s₁ s') : Passed g fd s s' :=
  Passed.of_view (v := MainLoop.view s fd) (by rw [hv, Function.update_eq_self]) hb h

theorem rearm_passed {g : Setup} {s : Server} {fd : Int} (h : Loose g s fd) (ev : Ready) :
    Passed g fd s (s.rearm fd ev) := by
  obtain ⟨r, hr, -⟩ := h.registered
  have howners : View.owners { view s fd with
      registered := some { ev := ev, oneshot := true, enabled := true } } = 1 :=
    View.owners_armed rfl h.queued h.handlers
  refine ⟨⟨_, view_rearm h.sockfd (by rw [hr]; rfl) ev, ?_, fun _ => howners⟩, rfl⟩
  exact h.fine h.client.1 h.sockfd (Nat.le_of_eq howners) ⟨_, rfl, rfl⟩

theorem closeConn_passed {g : Setup} {s : Server} {fd : Int} (h : Loose g s fd) :
    Passed g fd s (s.closeConn fd) := by
  have hnonneg := h.nonneg
  refine ⟨⟨_, view_closeConn h.sockfd (by omega), ?_, fun hc => by simp [View.Client] at hc⟩, ?_⟩
  · have hh := h.handlers
    simp only [handlers, Nat.add_eq_zero_iff] at hh
    constructor
    · intro hg
      simp [h.client.2] at hg
    · intro ho
      simp at ho
    · intro hc
      simp [View.Client] at hc
    · intro _
      exact ⟨h.queued, hh.2, fun _ => ⟨rfl, hh.1⟩⟩
  · rw [Server.closeConn]
    split <;> rfl

theorem Loose.rearm {g : Setup} {s : Server} {fd : Int} (h : Loose g s fd) (ev : Ready) :
    Loose g (s.rearm fd ev) fd := by
  obtain ⟨r, hr, -⟩ := h.registered
  have hi : (modfd s.kernel fd ev).interest fd =
      some { ev := ev, oneshot := true, enabled := true } :=
    Kernel.ctlMod_interest_self _ (by rw [hr]; rfl)
  refine ⟨?_, h.nonneg, h.sockfd, ?_, h.queued, h.handlers⟩
  · simpa [Client, Server.rearm, modfd] using h.client
  · simp only [Server.rearm, h.sockfd]
    exact ⟨_, hi, rfl⟩

theorem rearm_closed {s : Server} {fd : Int} (hs : (s.users fd).sockfd = -1)
    (hn : s.kernel.interest (-1) = none) (ev : Ready) : s.rearm fd ev = s := by
  simp [Server.rearm, modfd, Kernel.ctlMod, hs, hn]

theorem Loose.setUser {g : Setup} {s : Server} {fd : Int} (h : Loose g s fd) {u : User}
    (hu : u.sockfd = (s.users fd).sockfd) : Loose g (s.setUser fd u) fd :=
  h.congr (congrFun (view_setUser s hu) fd)

theorem rearm_setUser_passed {g : Setup} {s : Server} {fd : Int} (h : Loose g s fd) {u : User}
    (hu : u.sockfd = (s.users fd).sockfd) (ev : Ready) :
    Passed g fd s ((s.setUser fd u).rearm fd ev) :=
  (rearm_passed (h.setUser hu) ev).of_same (view_setUser s hu) rfl

theorem closeConn_setUser_passed {g : Setup} {s : Server} {fd : Int} (h : Loose g s fd) {u : User}
    (hu : u.sockfd = (s.users fd).sockfd) : Passed g fd s ((s.setUser fd u).closeConn fd) :=
  (closeConn_passed (h.setUser hu)).of_same (view_setUser s hu) rfl

/-- The descriptor is armed when it is closed. -/
theorem closeConn_rearm_passed {g : Setup} {s : Server} {fd : Int} (h : Loose g s fd)
    (ev : Ready) : Passed g fd s ((s.rearm fd ev).closeConn fd) := by
  obtain ⟨r, hr, -⟩ := h.registered
  have hview := view_rearm h.sockfd (by rw [hr]; rfl) ev
  exact (closeConn_passed (h.rearm ev)).of_view hview rfl

/-- Each way out of `process` re-arms the connection or closes it. -/
theorem process_passed {g : Setup} {s : Server} {fd : Int} (h : Loose g s fd)
    (hn : s.kernel.interest (-1) = none) (p : Parsed) : Passed g fd s (process s fd p) := by
  unfold process
  by_cases hno : p.readRet = .noRequest
  · simp only [hno, if_true]
    exact rearm_setUser_passed h (by rfl) .epollin
  · simp only [hno, if_false]
    generalize HttpConnWrite.processWrite _ p.readRet = w
    obtain ⟨out, writeRet⟩ := w
    cases writeRet with
    | true => exact rearm_setUser_passed h (by rfl) .epollout
    | false =>
      have hne : fd ≠ -1 := by
        have := h.nonneg
        omega
      have hclosed : (((s.setUser fd { s.users fd with out := out }).closeConn fd).users fd).sockfd
          = -1 := by
        simp [Server.closeConn, Server.setUser, h.sockfd, hne]
      have hnone :
          ((s.setUser fd { s.users fd with out := out }).closeConn fd).kernel.interest (-1) =
            none := by
        simp [Server.closeConn, Server.setUser, removefd, h.sockfd, hne, hne.symm, hn]
      simp only [Bool.false_eq_true, if_false]
      rw [rearm_closed hclosed hnone]
      exact closeConn_setUser_passed h (by rfl)

/-- Each way out of `write` re-arms the connection, or leaves it to be closed. -/
theorem write_passed {g : Setup} {s s' : Server} {fd : Int} (h : Loose g s fd)
    {outcomes : List HttpConnWrite.Writev} {ret : Bool}
    (hw : write s fd outcomes = some (ret, s')) :
    Passed g fd s (if ret then s' else s'.closeConn fd) := by
  simp only [write, Option.bind_eq_bind, Option.bind_eq_some_iff, Option.some.injEq,
    Prod.mk.injEq] at hw
  obtain ⟨⟨ended, out, sent⟩, -, rfl, rfl⟩ := hw
  cases ended with
  | nothing => exact rearm_setUser_passed h (by rfl) .epollin
  | kept => exact rearm_setUser_passed h (by rfl) .epollin
  | again => exact rearm_setUser_passed h (by rfl) .epollout
  | error => exact closeConn_setUser_passed h (by rfl)
  | closing =>
    have hset : Loose g (s.setUser fd { s.users fd with out := out }) fd := h.setUser rfl
    exact (closeConn_rearm_passed hset .epollin).of_same (view_setUser s (by rfl)) rfl

theorem read_view {s s' : Server} {fd : Int} {outcomes : List Recv} {ret : Bool}
    (hr : read s fd outcomes = some (ret, s')) :
    view s' = view s ∧ s'.batch = s.batch ∧ s'.threads = s.threads := by
  unfold read at hr
  by_cases hfull : (s.users fd).readIdx ≥ HttpConn.readBufferSize
  · simp only [hfull, if_true, Option.some.injEq, Prod.mk.injEq] at hr
    obtain ⟨-, rfl⟩ := hr
    exact ⟨rfl, rfl, rfl⟩
  · simp only [hfull, if_false, Option.bind_eq_bind, Option.bind_eq_some_iff, Option.some.injEq,
      Prod.mk.injEq] at hr
    obtain ⟨⟨_, readIdx⟩, -, rfl, rfl⟩ := hr
    exact ⟨view_setUser s rfl, rfl, rfl⟩

theorem read_fst (s : Server) (batch : List Event) (fd : Int) (outcomes : List Recv) :
    (read { s with batch := batch } fd outcomes).map Prod.fst =
      (read s fd outcomes).map Prod.fst := by
  unfold read
  by_cases hfull : (s.users fd).readIdx ≥ HttpConn.readBufferSize
  · simp [hfull]
  · simp only [hfull, if_false]
    cases readLoop (s.users fd).readIdx outcomes <;> rfl

/-- A full queue: nothing happens to the connection. -/
theorem append_full {s : Server} (h : s.threads.pool.workqueue.length > s.threads.pool.maxRequests)
    (semValueMax : Nat) (fd : Int) : (append semValueMax s fd).1 = s := by
  simp [append, Threadpool.appendLocked, h]

theorem view_append {s : Server}
    (h : s.threads.pool.workqueue.length ≤ s.threads.pool.maxRequests) (semValueMax : Nat)
    (fd : Int) : view (append semValueMax s fd).1 = Function.update (view s) fd
      { view s fd with queued := queued s fd + 1 } := by
  have hnot : ¬s.threads.pool.workqueue.length > s.threads.pool.maxRequests := by omega
  have hqueue : (append semValueMax s fd).1.threads.pool.workqueue =
      s.threads.pool.workqueue ++ [some fd] := by
    simp only [append, Threadpool.appendLocked, hnot, if_false, if_true, Threadpool.step,
      Threadpool.stepAppend, Threadpool.post]
    split <;> rfl
  have hworkers : (append semValueMax s fd).1.threads.workers = s.threads.workers := by
    simp only [append, Threadpool.appendLocked, hnot, if_false, if_true, Threadpool.step,
      Threadpool.stepAppend]
  have hsame : (append semValueMax s fd).1.kernel = s.kernel ∧
      (append semValueMax s fd).1.users = s.users ∧
      (append semValueMax s fd).1.batch = s.batch := by
    simp only [append, Threadpool.appendLocked, hnot, if_false, if_true, and_self]
  obtain ⟨hk, hu, hb⟩ := hsame
  funext d
  by_cases hd : d = fd
  · subst hd
    simp [view, queued, hqueue, hworkers, hk, hu, hb]
  · have hne : ¬fd = d := fun e => hd e.symm
    simp [view, queued, hqueue, hworkers, hk, hu, hb, hd, hne]

theorem append_batch (semValueMax : Nat) (s : Server) (fd : Int) :
    (append semValueMax s fd).1.batch = s.batch := by
  unfold append
  split <;> rfl

theorem append_passed {g : Setup} {s : Server} {fd : Int} (h : Loose g s fd)
    (hidle : armed s fd = false)
    (hroom : s.threads.pool.workqueue.length ≤ s.threads.pool.maxRequests) (semValueMax : Nat) :
    Passed g fd s (append semValueMax s fd).1 := by
  have howners : View.owners { view s fd with queued := queued s fd + 1 } = 1 := by
    rw [View.owners_unarmed]
    · exact congrArg (· + 1) h.queued
    · exact hidle
    · exact h.handlers
  refine ⟨⟨_, view_append hroom semValueMax fd, ?_, fun _ => howners⟩, append_batch _ _ _⟩
  exact h.fine h.client.1 h.sockfd (Nat.le_of_eq howners) h.registered

/-- Each event of a client ends with its connection closed or owned, as long as the queue takes what
is appended. -/
theorem handleClient_passed {g : Setup} {s s' : Server} {e : Event} {r : Replies}
    (h : Loose g s e.fd) (hidle : armed s e.fd = false)
    (hasked : (e.down || e.epollin || e.epollout) = true) (hne : e.fd ≠ g.listenfd)
    (hs : handleClient g.semValueMax s e r = some s')
    (hroom : Appends g s e r → s.threads.pool.workqueue.length ≤ s.threads.pool.maxRequests) :
    Passed g e.fd s s' := by
  unfold handleClient at hs
  by_cases hdown : e.down = true
  · simp only [hdown, if_true, Option.some.injEq] at hs
    subst hs
    exact closeConn_passed h
  · rw [Bool.not_eq_true] at hdown
    simp only [hdown, Bool.false_eq_true, if_false] at hs
    by_cases hin : e.epollin = true
    · simp only [hin, if_true, Option.map_eq_some_iff] at hs
      obtain ⟨⟨ret, s₁⟩, hread, rfl⟩ := hs
      obtain ⟨hview, hbatch, hthreads⟩ := read_view hread
      have h₁ : Loose g s₁ e.fd := h.congr (congrFun hview e.fd)
      cases ret with
      | true =>
        have hlen := hroom ⟨hne, hdown, hin, by rw [hread]; rfl⟩
        have hidle₁ : armed s₁ e.fd = false :=
          (congrArg View.armed (congrFun hview e.fd)).trans hidle
        rw [← hthreads] at hlen
        exact (append_passed h₁ hidle₁ hlen _).of_same hview hbatch
      | false => exact (closeConn_passed h₁).of_same hview hbatch
    · rw [Bool.not_eq_true] at hin
      have hout : e.epollout = true := by simpa [hdown, hin] using hasked
      simp only [hin, hout, Bool.false_eq_true, if_false, if_true, Option.map_eq_some_iff] at hs
      obtain ⟨⟨ret, s₁⟩, hwrite, rfl⟩ := hs
      exact write_passed h hwrite

/-- A request the queue does not take. -/
theorem handleClient_full {g : Setup} {s s' : Server} {e : Event} {r : Replies}
    (ha : Appends g s e r)
    (hfull : s.threads.pool.workqueue.length > s.threads.pool.maxRequests)
    (hs : handleClient g.semValueMax s e r = some s') : view s' = view s ∧ s'.batch = s.batch := by
  obtain ⟨-, hdown, hin, hret⟩ := ha
  simp only [handleClient, hdown, hin, Bool.false_eq_true, if_false, if_true,
    Option.map_eq_some_iff] at hs
  obtain ⟨⟨ret, s₁⟩, hread, rfl⟩ := hs
  rw [hread] at hret
  obtain rfl : ret = true := by simpa using hret
  obtain ⟨hview, hbatch, hthreads⟩ := read_view hread
  rw [← hthreads] at hfull
  rw [if_pos rfl, append_full hfull]
  exact ⟨hview, hbatch⟩

end MainLoop
end Unpvol1
