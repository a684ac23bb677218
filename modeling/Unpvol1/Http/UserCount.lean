import Mathlib.Data.Int.Interval
import Unpvol1.Http.MainCalls
import Unpvol1.Http.OwnerRuns

/-!
# Http.UserCount

`m_user_count` against the slots of `users`, across the reuse of descriptors.

* `live`   — the slots that were initialised and not closed since, read off the calls made on them.
* `Tally`  — the invariant of the server: the count is the number of live slots, each of them holds
  its own descriptor, a slot closed again holds none, and epoll, the batch, the queue and the
  workers name no slot that was never initialised.
* `NextOk` — what the next call of `main` finds.
* `callStep_inv` — every call keeps both, also a `close_conn` on a slot already closed.
-/

namespace Unpvol1
namespace MainLoop

/-- The slots initialised and not closed since. -/
def live : List SlotCall → Finset Int
  | [] => ∅
  | .init fd :: calls => insert fd (live calls)
  | .closeConn fd :: calls => (live calls).erase fd

/-- A descriptor `main` has in its batch, the pool in its queue, or a worker in hand. -/
def Held (g : Setup) (s : Server) (fd : Int) : Prop :=
  (fd ≠ g.listenfd ∧ fd ∈ s.batch.map Event.fd) ∨ some fd ∈ s.threads.pool.workqueue ∨
    .processing fd ∈ s.threads.workers

structure Tally (g : Setup) (calls : List SlotCall) (s : Server) : Prop where
  count : s.userCount = (live calls).card
  sockfd : ∀ fd ∈ live calls, (s.users fd).sockfd = fd
  closed : ∀ fd, .init fd ∈ calls → fd ∉ live calls → (s.users fd).sockfd = -1
  opened : ∀ fd ∈ live calls, s.kernel.opened fd = true
  range : ∀ fd ∈ live calls, 0 ≤ fd ∧ fd < maxFd
  registered : ∀ fd, (s.kernel.interest fd).isSome = true → fd = g.listenfd ∨ .init fd ∈ calls
  held : ∀ fd, Held g s fd → .init fd ∈ calls

section
variable {g : Setup} {calls : List SlotCall} {s s' : Server} {fd : Int}

/-- A step that makes no call on a slot, closes none and takes none in hand it should not. -/
theorem Tally.keep (h : Tally g calls s) (hcount : s'.userCount = s.userCount)
    (hsock : ∀ fd, (s'.users fd).sockfd = (s.users fd).sockfd)
    (hopen : ∀ fd ∈ live calls, s'.kernel.opened fd = s.kernel.opened fd)
    (hreg : ∀ fd, (s'.kernel.interest fd).isSome = true →
      (s.kernel.interest fd).isSome = true)
    (hheld : ∀ fd, Held g s' fd → Held g s fd ∨ .init fd ∈ calls) : Tally g calls s' where
  count := hcount.trans h.count
  sockfd := fun fd hfd => (hsock fd).trans (h.sockfd fd hfd)
  closed := fun fd hi hfd => (hsock fd).trans (h.closed fd hi hfd)
  opened := fun fd hfd => (hopen fd hfd).trans (h.opened fd hfd)
  range := h.range
  registered := fun fd hr => h.registered fd (hreg fd hr)
  held := fun fd hh => (hheld fd hh).elim (h.held fd) id

/-- A move of the threads alone. -/
theorem Tally.move (h : Tally g calls s) {threads : Threadpool.State Int}
    (hqueue : ∀ fd, some fd ∈ threads.pool.workqueue →
      some fd ∈ s.threads.pool.workqueue ∨ .init fd ∈ calls)
    (hworkers : ∀ fd, .processing fd ∈ threads.workers →
      .processing fd ∈ s.threads.workers ∨ .init fd ∈ calls) :
    Tally g calls { s with threads := threads } := by
  refine h.keep rfl (fun _ => rfl) (fun _ _ => rfl) (fun _ => id) fun fd hh => ?_
  rcases hh with hb | hq | hw
  · exact .inl (.inl hb)
  · exact (hqueue fd hq).imp (fun hq => .inr (.inl hq)) id
  · exact (hworkers fd hw).imp (fun hw => .inr (.inr hw)) id

/-- A descriptor that is no live slot's is opened or closed, which leaves it unregistered. -/
theorem Tally.offLive (h : Tally g calls s) {k : Kernel Registered} (hfd : fd ∉ live calls)
    (hopen : ∀ d, d ≠ fd → k.opened d = s.kernel.opened d)
    (hreg : k.interest = Function.update s.kernel.interest fd none) :
    Tally g calls { s with kernel := k } := by
  refine h.keep rfl (fun _ => rfl) (fun d hd => ?_) (fun d hd => ?_) (fun _ => .inl)
  · refine hopen d ?_
    rintro rfl
    exact hfd hd
  · simp only [hreg] at hd
    by_cases hne : d = fd
    · simp [hne] at hd
    · simpa [hne] using hd

theorem Tally.setUser (h : Tally g calls s) {u : User} (hu : u.sockfd = (s.users fd).sockfd) :
    Tally g calls (s.setUser fd u) := by
  refine h.keep rfl (fun d => ?_) (fun _ _ => rfl) (fun _ => id) (fun _ => .inl)
  by_cases hd : d = fd
  · subst hd
    simp [Server.setUser, hu]
  · simp [Server.setUser, hd]

theorem Tally.rearm (h : Tally g calls s) (fd : Int) (ev : Ready) :
    Tally g calls (s.rearm fd ev) := by
  refine h.keep rfl (fun _ => rfl) (fun d _ => ?_) (fun d hd => ?_) (fun _ => .inl)
  · simp [Server.rearm, modfd]
  · simp only [Server.rearm, modfd, Kernel.ctlMod] at hd
    split at hd
    · rename_i hreg
      by_cases hfd : d = (s.users fd).sockfd
      · rw [hfd]
        exact hreg
      · simpa [hfd] using hd
    · exact hd

theorem rearm_opened (s : Server) (fd : Int) (ev : Ready) :
    (s.rearm fd ev).kernel.opened = s.kernel.opened := Kernel.ctlMod_opened _ _ _

/-- Nothing happens to a slot that is closed already. -/
theorem closeConn_closed (h : (s.users fd).sockfd = -1) : s.closeConn fd = s := by
  simp [Server.closeConn, h]

theorem Tally.closeLive (h : Tally g calls s) (hlive : fd ∈ live calls) :
    Tally g (.closeConn fd :: calls) (s.closeConn fd) := by
  have hsock := h.sockfd fd hlive
  have hne : fd ≠ -1 := by
    have := (h.range fd hlive).1
    omega
  have hof : ∀ d ∈ live (.closeConn fd :: calls), d ≠ fd ∧ d ∈ live calls :=
    fun d hd => Finset.mem_erase.mp hd
  simp only [Server.closeConn, hsock, if_pos hne]
  constructor
  · have hcard := Finset.card_erase_add_one hlive
    have hcount := h.count
    simp only [live]
    omega
  · intro d hd
    obtain ⟨hdfd, hd⟩ := hof d hd
    simpa [hdfd] using h.sockfd d hd
  · intro d hi hd
    by_cases hdfd : d = fd
    · simp [hdfd]
    · have hi : .init d ∈ calls := by simpa using hi
      have hd : d ∉ live calls := fun hmem => hd (Finset.mem_erase.mpr ⟨hdfd, hmem⟩)
      simpa [hdfd] using h.closed d hi hd
  · intro d hd
    obtain ⟨hdfd, hd⟩ := hof d hd
    simpa [removefd, hdfd] using h.opened d hd
  · exact fun d hd => h.range d (hof d hd).2
  · intro d hd
    by_cases hdfd : d = fd
    · simp [removefd, hdfd] at hd
    · simp only [removefd, Kernel.close_interest, Kernel.ctlDel_interest,
        Function.update_of_ne hdfd] at hd
      exact (h.registered d hd).imp id (List.mem_cons_of_mem _)
  · exact fun d hd => List.mem_cons_of_mem _ (h.held d hd)

theorem Tally.closeAgain (h : Tally g calls s) (hinit : .init fd ∈ calls)
    (hlive : fd ∉ live calls) : Tally g (.closeConn fd :: calls) (s.closeConn fd) := by
  have hsame : live (.closeConn fd :: calls) = live calls := Finset.erase_eq_of_notMem hlive
  rw [closeConn_closed (h.closed fd hinit hlive)]
  constructor
  · rw [hsame]
    exact h.count
  · rw [hsame]
    exact h.sockfd
  · intro d hi hd
    rw [hsame] at hd
    exact h.closed d (by simpa using hi) hd
  · rw [hsame]
    exact h.opened
  · rw [hsame]
    exact h.range
  · exact fun d hd => (h.registered d hd).imp id (List.mem_cons_of_mem _)
  · exact fun d hd => List.mem_cons_of_mem _ (h.held d hd)

theorem Tally.closeConn (h : Tally g calls s) (hinit : .init fd ∈ calls) :
    Tally g (.closeConn fd :: calls) (s.closeConn fd) := by
  by_cases hlive : fd ∈ live calls
  · exact h.closeLive hlive
  · exact h.closeAgain hinit hlive

theorem Tally.init (h : Tally g calls s) (hnew : fd ∉ live calls)
    (hopen : s.kernel.opened fd = true) (hrange : 0 ≤ fd ∧ fd < maxFd) :
    Tally g (.init fd :: calls) (s.init fd) := by
  constructor
  · have hcount := h.count
    simp only [Server.init, live, Finset.card_insert_of_notMem hnew]
    omega
  · intro d hd
    by_cases hdfd : d = fd
    · simp [Server.init, User.init, hdfd]
    · have hd : d ∈ live calls := (Finset.mem_insert.mp hd).resolve_left hdfd
      simpa [Server.init, hdfd] using h.sockfd d hd
  · intro d hi hd
    have hdfd : d ≠ fd := fun hdfd => hd (Finset.mem_insert.mpr (.inl hdfd))
    have hi : .init d ∈ calls := by simpa [hdfd] using hi
    have hd : d ∉ live calls := fun hmem => hd (Finset.mem_insert_of_mem hmem)
    simpa [Server.init, hdfd] using h.closed d hi hd
  · intro d hd
    simp only [Server.init, addfd, Kernel.ctlAdd_opened]
    rcases Finset.mem_insert.mp hd with rfl | hd
    · exact hopen
    · exact h.opened d hd
  · intro d hd
    rcases Finset.mem_insert.mp hd with rfl | hd
    · exact hrange
    · exact h.range d hd
  · intro d hd
    by_cases hdfd : d = fd
    · exact .inr (by simp [hdfd])
    · have hd : (s.kernel.interest d).isSome = true := by
        simpa only [Server.init, addfd, Kernel.ctlAdd_interest_of_ne _ _ hdfd] using hd
      exact (h.registered d hd).imp id (List.mem_cons_of_mem _)
  · exact fun d hd => List.mem_cons_of_mem _ (h.held d hd)

/-! ## The calls of `main` and of a worker -/

/-- `read` touches its own slot, and not the descriptor in it. -/
theorem read_setUser {outcomes : List Recv} {ret : Bool}
    (hr : read s fd outcomes = some (ret, s')) :
    ∃ u, u.sockfd = (s.users fd).sockfd ∧ s' = s.setUser fd u := by
  unfold read at hr
  by_cases hfull : (s.users fd).readIdx ≥ HttpConn.readBufferSize
  · simp only [hfull, if_true, Option.some.injEq, Prod.mk.injEq] at hr
    obtain ⟨-, rfl⟩ := hr
    exact ⟨s.users fd, rfl, by simp [Server.setUser]⟩
  · simp only [hfull, if_false, Option.bind_eq_bind, Option.bind_eq_some_iff, Option.some.injEq,
      Prod.mk.injEq] at hr
    obtain ⟨⟨_, readIdx⟩, -, -, rfl⟩ := hr
    refine ⟨_, ?_, rfl⟩
    rfl

theorem Tally.write (h : Tally g calls s) {outcomes : List HttpConnWrite.Writev} {ret : Bool}
    (hw : write s fd outcomes = some (ret, s')) : Tally g calls s' := by
  simp only [MainLoop.write, Option.bind_eq_bind, Option.bind_eq_some_iff, Option.some.injEq,
    Prod.mk.injEq] at hw
  obtain ⟨⟨ended, out, sent⟩, -, -, rfl⟩ := hw
  have hset : Tally g calls (s.setUser fd { s.users fd with out := out }) := h.setUser rfl
  have hinit : Tally g calls (s.setUser fd (User.init { s.users fd with out := out })) :=
    h.setUser rfl
  cases ended with
  | nothing => exact hinit.rearm fd .epollin
  | kept => exact hinit.rearm fd .epollin
  | again => exact hset.rearm fd .epollout
  | error => exact hset
  | closing => exact hset.rearm fd .epollin

/-- `close_conn` closes a live slot's descriptor or none. -/
theorem closeConn_opened (h : Tally g calls s) (hinit : .init fd ∈ calls) {d : Int}
    (hd : d ∉ live calls) : (s.closeConn fd).kernel.opened d = s.kernel.opened d := by
  by_cases hlive : fd ∈ live calls
  · have hne : d ≠ fd := by
      rintro rfl
      exact hd hlive
    unfold Server.closeConn
    split
    · simp [removefd, h.sockfd fd hlive, hne]
    · rfl
  · rw [closeConn_closed (h.closed fd hinit hlive)]

theorem Tally.process (h : Tally g calls s) (hinit : .init fd ∈ calls) (p : Parsed) :
    Tally g (closes s fd p ++ calls) (process s fd p) ∧
      ∀ d ∉ live calls, (process s fd p).kernel.opened d = s.kernel.opened d := by
  unfold MainLoop.process closes processCloses
  by_cases hno : p.readRet = .noRequest
  · simp only [hno, if_true, ne_eq, not_true_eq_false, decide_false, Bool.false_and,
      Bool.false_eq_true, if_false, List.nil_append]
    exact ⟨(h.setUser (by rfl)).rearm fd .epollin, fun d _ => congrFun (rearm_opened _ _ _) d⟩
  · simp only [hno, if_false, ne_eq, not_false_eq_true, decide_true, Bool.true_and]
    generalize HttpConnWrite.processWrite _ p.readRet = w
    obtain ⟨out, writeRet⟩ := w
    have hset : Tally g calls (s.setUser fd { s.users fd with out := out }) := h.setUser rfl
    cases writeRet with
    | true =>
      exact ⟨hset.rearm fd .epollout, fun d _ => congrFun (rearm_opened _ _ _) d⟩
    | false =>
      refine ⟨(hset.closeConn hinit).rearm fd .epollout, fun d hd => ?_⟩
      exact (congrFun (rearm_opened _ _ _) d).trans (closeConn_opened hset hinit hd)

/-- What the next call of `main` finds: a descriptor that is open and whose slot is free, or a slot
that was initialised. -/
def NextOk (calls : List SlotCall) (s : Server) : Next → Prop
  | .event | .post => True
  | .checkCount connfd | .showError connfd | .init connfd =>
    connfd ∉ live calls ∧ s.kernel.opened connfd = true ∧ 0 ≤ connfd ∧ connfd < maxFd
  | .closeConn fd | .append fd => .init fd ∈ calls

structure StageInv (g : Setup) (t : Stage) : Prop where
  tally : Tally g t.calls t.server
  next : NextOk t.calls t.server t.next

/-- A worker leaves alone what the next call of `main` depends on. -/
theorem NextOk.keep {next : Next} (h : NextOk calls s next) (cs : List SlotCall)
    (hlive : ∀ d ∈ live (cs ++ calls), d ∈ live calls)
    (hopen : ∀ d ∉ live calls, s'.kernel.opened d = s.kernel.opened d) :
    NextOk (cs ++ calls) s' next := by
  have hfree : ∀ c, c ∉ live calls ∧ s.kernel.opened c = true ∧ 0 ≤ c ∧ c < maxFd →
      c ∉ live (cs ++ calls) ∧ s'.kernel.opened c = true ∧ 0 ≤ c ∧ c < maxFd := by
    rintro c ⟨hnew, hc, hrange⟩
    exact ⟨fun hmem => hnew (hlive c hmem), (hopen c hnew).trans hc, hrange⟩
  cases next with
  | event => trivial
  | post => trivial
  | checkCount connfd => exact hfree connfd h
  | showError connfd => exact hfree connfd h
  | init connfd => exact hfree connfd h
  | closeConn fd => exact List.mem_append_right cs h
  | append fd => exact List.mem_append_right cs h

theorem Tally.drop (h : Tally g calls s) {e : Event} {rest : List Event}
    (hb : s.batch = e :: rest) : Tally g calls { s with batch := rest } := by
  refine h.keep rfl (fun _ => rfl) (fun _ _ => rfl) (fun _ => id) fun fd hh => .inl ?_
  rcases hh with ⟨hl, hmem⟩ | hh
  · refine .inl ⟨hl, ?_⟩
    rw [hb]
    exact List.mem_cons_of_mem _ hmem
  · exact .inr hh

/-- What `accept` returns is no live slot's. -/
theorem Tally.accept (h : Tally g calls s) (hfresh : s.kernel.Fresh fd) (hlt : fd < maxFd) :
    Tally g calls { s with kernel := s.kernel.openFd fd } ∧
      NextOk calls { s with kernel := s.kernel.openFd fd } (.checkCount fd) := by
  have hnew : fd ∉ live calls := by
    intro hmem
    have hopen := h.opened fd hmem
    rw [hfresh.2] at hopen
    cases hopen
  refine ⟨h.offLive hnew (fun d hd => Function.update_of_ne hd _ _) rfl, hnew, ?_, hfresh.1, hlt⟩
  exact Function.update_self _ _ _

/-- The slot of a client's event was initialised. -/
theorem Tally.client (h : Tally g calls s) {e : Event} {r : Replies} {next : Next}
    (hinit : .init e.fd ∈ calls) (hl : e.fd ≠ g.listenfd)
    (ht : takeEvent g s e r = some (s', next)) : Tally g calls s' ∧ NextOk calls s' next := by
  unfold takeEvent at ht
  simp only [hl, if_false] at ht
  by_cases hdown : e.down = true
  · simp only [hdown, if_true, Option.some.injEq, Prod.mk.injEq] at ht
    obtain ⟨rfl, rfl⟩ := ht
    exact ⟨h, hinit⟩
  · by_cases hin : e.epollin = true
    · simp only [hdown, hin, if_true, Bool.false_eq_true, if_false, Option.map_eq_some_iff,
        Prod.mk.injEq] at ht
      obtain ⟨⟨ret, s₁⟩, hread, rfl, rfl⟩ := ht
      obtain ⟨u, hu, rfl⟩ := read_setUser hread
      refine ⟨h.setUser hu, ?_⟩
      cases ret <;> exact hinit
    · by_cases hout : e.epollout = true
      · simp only [hdown, hin, hout, if_true, Bool.false_eq_true, if_false,
          Option.map_eq_some_iff, Prod.mk.injEq] at ht
        obtain ⟨⟨ret, s₁⟩, hwrite, rfl, rfl⟩ := ht
        refine ⟨h.write hwrite, ?_⟩
        cases ret with
        | true => trivial
        | false => exact hinit
      · simp only [hdown, hin, hout, Bool.false_eq_true, if_false, Option.some.injEq,
          Prod.mk.injEq] at ht
        obtain ⟨rfl, rfl⟩ := ht
        exact ⟨h, trivial⟩

/-- The first call for an event of the batch. -/
theorem take_inv {e : Event} {rest : List Event} {r : Replies} {next : Next}
    (h : Tally g calls s) (hb : s.batch = e :: rest) (hr : Acceptable s r)
    (ht : takeEvent g { s with batch := rest } e r = some (s', next)) :
    Tally g calls s' ∧ NextOk calls s' next := by
  by_cases hl : e.fd = g.listenfd
  · simp only [takeEvent, hl, if_true] at ht
    cases ha : r.accepted with
    | none =>
      simp only [ha, Option.some.injEq, Prod.mk.injEq] at ht
      obtain ⟨rfl, rfl⟩ := ht
      exact ⟨h.drop hb, trivial⟩
    | some connfd =>
      simp only [ha, Option.some.injEq, Prod.mk.injEq] at ht
      obtain ⟨rfl, rfl⟩ := ht
      obtain ⟨hfresh, hlt⟩ := hr connfd ha
      exact (h.drop hb).accept hfresh hlt
  · have hinit : .init e.fd ∈ calls := by
      refine h.held e.fd (.inl ⟨hl, ?_⟩)
      rw [hb]
      exact List.mem_cons_self
    exact (h.drop hb).client hinit hl ht

theorem Tally.appendCall (h : Tally g calls s) (hinit : .init fd ∈ calls) (semValueMax : Nat) :
    Tally g calls (appendCall semValueMax s fd).1 := by
  unfold MainLoop.appendCall
  split
  · rename_i hroom
    refine h.move (fun d hd => ?_) (fun d hd => .inl ?_)
    · simp only [Threadpool.step, Threadpool.stepAppend, Threadpool.appendLocked] at hroom hd
      split at hd
      · exact .inl hd
      · rename_i hlocked
        split at hlocked
        · cases hlocked
        · simp only [Prod.mk.injEq, and_true] at hlocked
          subst hlocked
          rcases List.mem_append.mp hd with hd | hd
          · exact .inl hd
          · obtain rfl : d = fd := by simpa using hd
            exact .inr hinit
    · simp only [Threadpool.step, Threadpool.stepAppend] at hd
      split at hd <;> exact hd
  · exact h

theorem mainStep_inv {t : Stage} (h : StageInv g t) {r : Replies}
    (hok : callEnabled g t (.event r)) : StageInv g (mainStep g t r) := by
  obtain ⟨s, next, calls⟩ := t
  obtain ⟨ht, hn⟩ := h
  cases next with
  | event =>
    obtain ⟨e, rest, hb, hr, htake⟩ := hok rfl
    obtain ⟨⟨s', next⟩, hs⟩ := Option.ne_none_iff_exists'.mp htake
    have hb : s.batch = e :: rest := hb
    simp only [mainStep, hb, hs]
    obtain ⟨ht', hn'⟩ := take_inv ht hb hr hs
    exact ⟨ht', hn'⟩
  | checkCount connfd =>
    refine ⟨ht, ?_⟩
    simp only [mainStep]
    split <;> exact hn
  | showError connfd =>
    obtain ⟨hnew, -⟩ := hn
    exact ⟨ht.offLive hnew (fun d hd => Function.update_of_ne hd _ _) rfl, trivial⟩
  | init connfd =>
    obtain ⟨hnew, hopen, hrange⟩ := hn
    exact ⟨ht.init hnew hopen hrange, trivial⟩
  | closeConn fd => exact ⟨ht.closeConn hn, trivial⟩
  | append fd =>
    refine ⟨ht.appendCall hn g.semValueMax, ?_⟩
    simp only [mainStep, appendCall]
    split <;> trivial
  | post =>
    refine ⟨ht.move (fun d hd => .inl ?_) (fun d hd => .inl hd), trivial⟩
    simp only [Threadpool.step, Threadpool.post] at hd
    split at hd <;> exact hd

/-- A worker that moves on, with nothing new in hand. -/
theorem processing_set {ws : List (Threadpool.Worker Int)} {j : Nat} {w : Threadpool.Worker Int}
    (hw : ∀ fd, w ≠ .processing fd) {fd : Int} (h : .processing fd ∈ ws.set j w) :
    .processing fd ∈ ws :=
  Threads.mem_of_mem_set (hw fd) h

theorem Tally.pop (h : Tally g calls s) (semValueMax : Nat) (j : Nat) :
    Tally g calls
      { s with threads := Threadpool.step semValueMax s.threads (.pop j) } := by
  have hheld : ∀ d, some d ∈ s.threads.pool.workqueue → .init d ∈ calls :=
    fun d hd => h.held d (.inr (.inl hd))
  refine h.move (fun d hd => .inl ?_) (fun d hd => ?_)
  · simp only [Threadpool.step, Threadpool.stepPop, Threadpool.popLocked] at hd
    cases hq : s.threads.pool.workqueue with
    | nil => simp [hq] at hd
    | cons request rest =>
      cases request <;> exact List.mem_cons_of_mem _ (by simpa [hq] using hd)
  · simp only [Threadpool.step, Threadpool.stepPop, Threadpool.popLocked] at hd
    cases hq : s.threads.pool.workqueue with
    | nil =>
      simp only [hq] at hd
      exact .inl (processing_set (w := .loop) (fun _ => by simp) hd)
    | cons request rest =>
      rw [hq] at hheld
      cases request with
      | none =>
        simp only [hq] at hd
        exact .inl (processing_set (w := .loop) (fun _ => by simp) hd)
      | some fd =>
        simp only [hq] at hd
        rcases List.mem_or_eq_of_mem_set hd with hd | hd
        · exact .inl hd
        · obtain rfl : d = fd := Threadpool.Worker.processing.inj hd
          exact .inr (hheld d List.mem_cons_self)

/-- What `epoll_wait` reports is registered, so its slot was initialised. -/
theorem Tally.report (h : Tally g calls s) {events : List Event}
    (he : ∀ e ∈ events, ∃ r, s.kernel.interest e.fd = some r ∧ Reportable r e) :
    Tally g calls { s with kernel := report s.kernel events, batch := events } := by
  refine h.keep rfl (fun _ => rfl) (fun _ _ => rfl) (fun d hd => ?_) (fun d hd => ?_)
  · simp only [MainLoop.report] at hd
    split at hd
    · simpa using hd
    · exact hd
  · rcases hd with ⟨hl, hmem⟩ | hd
    · obtain ⟨e, hevent, rfl⟩ := List.mem_map.mp hmem
      obtain ⟨r, hr, -⟩ := he e hevent
      exact .inr ((h.registered e.fd (by rw [hr]; rfl)).resolve_left hl)
    · exact .inl (.inr hd)

end

theorem callStep_inv {g : Setup} (t : Stage) (st : Step) (h : StageInv g t)
    (hok : (callsMachine g).ok t st) : StageInv g ((callsMachine g).step t st) := by
  obtain ⟨ht, hn⟩ := h
  cases st with
  | epollWait events =>
    obtain ⟨hnext, -, -, -, he⟩ := hok
    refine ⟨ht.report he, ?_⟩
    show NextOk _ _ t.next
    rw [hnext]
    trivial
  | event r => exact mainStep_inv ⟨ht, hn⟩ hok
  | test j =>
    refine ⟨ht.move (fun _ => .inl) (fun d hd => .inl (processing_set (fun fd => ?_) hd)), ?_⟩
    · cases t.server.threads.pool.stop <;> simp
    · exact hn.keep [] (fun _ => id) (fun _ _ => rfl)
  | wait j eintr =>
    refine ⟨ht.move (fun d hd => .inl ?_)
      (fun d hd => .inl (processing_set (w := .woken) (fun _ => by simp) hd)), ?_⟩
    · simp only [Threadpool.step, Threadpool.wait] at hd
      split at hd <;> exact hd
    · exact hn.keep [] (fun _ => id) (fun _ _ => rfl)
  | pop j => exact ⟨ht.pop g.semValueMax j, hn.keep [] (fun _ => id) (fun _ _ => rfl)⟩
  | process j p =>
    obtain ⟨fd, hj⟩ := hok
    have hinit : .init fd ∈ t.calls := ht.held fd (.inr (.inr (List.mem_of_getElem? hj)))
    have hidle : Tally g t.calls { t.server with
        threads := Threadpool.step g.semValueMax t.server.threads (.processed j) } :=
      ht.move (fun _ => .inl)
        (fun d hd => .inl (processing_set (w := .loop) (fun _ => by simp) hd))
    obtain ⟨hdone, hopen⟩ := hidle.process hinit p
    have hstep : (callsMachine g).step t (.process j p) =
        { t with
          server := process { t.server with
            threads := Threadpool.step g.semValueMax t.server.threads (.processed j) } fd p
          calls := closes t.server fd p ++ t.calls } := by
      simp only [callsMachine, callStep, stepProcess, processCalls, hj]
    rw [hstep]
    refine ⟨hdone, hn.keep _ (fun d hd => ?_) hopen⟩
    unfold closes at hd
    split at hd
    · exact Finset.mem_of_mem_erase hd
    · exact hd

/-! ## Runs -/

theorem first_inv (g : Setup) (users : Int → User) (threadNumber maxRequests : Nat) :
    StageInv g (firstStage g users threadNumber maxRequests) := by
  refine ⟨⟨rfl, ?_, ?_, ?_, ?_, fun fd hfd => .inl ?_, fun fd hh => ?_⟩, trivial⟩
  · simp [firstStage, live]
  · simp [firstStage]
  · simp [firstStage, live]
  · simp [firstStage, live]
  · by_contra hl
    simp only [firstStage, start, addfd, Kernel.ctlAdd_interest_of_ne _ _ hl] at hfd
    cases hfd
  · rcases hh with ⟨-, hb⟩ | hq | hw
    · simp [firstStage, start] at hb
    · simp [firstStage, start, Threadpool.start] at hq
    · simp [firstStage, start, Threadpool.start] at hw

/-- The count is the number of live slots, each with its own descriptor; to close a slot again
changes nothing. -/
structure Counts (t : Stage) : Prop where
  count : t.server.userCount = (live t.calls).card
  sockfd : ∀ fd ∈ live t.calls, (t.server.users fd).sockfd = fd
  closed : ∀ fd, .init fd ∈ t.calls → fd ∉ live t.calls → t.server.closeConn fd = t.server
  nonneg : 0 ≤ t.server.userCount
  le : t.server.userCount ≤ maxFd

/-- Live slots have indices below `MAX_FD`. -/
theorem Tally.card_le {g : Setup} {calls : List SlotCall} {s : Server} (h : Tally g calls s) :
    ((live calls).card : Int) ≤ maxFd := by
  have hsub : live calls ⊆ Finset.Ico 0 maxFd := fun fd hfd => Finset.mem_Ico.mpr (h.range fd hfd)
  have hcard := Finset.card_le_card hsub
  rw [Int.card_Ico, maxFd] at hcard
  rw [maxFd]
  omega

theorem Tally.counts {g : Setup} {t : Stage} (h : Tally g t.calls t.server) : Counts t where
  count := h.count
  sockfd := h.sockfd
  closed := fun fd hi hfd => closeConn_closed (h.closed fd hi hfd)
  nonneg := by
    rw [h.count]
    exact Int.natCast_nonneg _
  le := by
    rw [h.count]
    exact h.card_le

/-- Whatever the order of the calls, `m_user_count` is in every state the number of slots that were
initialised and not closed since. -/
theorem user_count (g : Setup) (users : Int → User) (threadNumber maxRequests : Nat)
    (steps : List Step)
    (hv : (callsMachine g).Valid (firstStage g users threadNumber maxRequests) steps) :
    (callsMachine g).Always Counts (firstStage g users threadNumber maxRequests) steps :=
  (Machine.always_inv callStep_inv (first_inv g users threadNumber maxRequests) hv).imp
    fun _ h => h.tally.counts

/-- A client connects and hangs up; its descriptor is handed out again. -/
def reuse : List Step :=
  [.epollWait [readable 3], .event ⟨some 5, [], []⟩, .event ⟨none, [], []⟩, .event ⟨none, [], []⟩,
    .epollWait [{ readable 5 with hup := true }], .event ⟨none, [], []⟩, .event ⟨none, [], []⟩,
    .epollWait [readable 3], .event ⟨some 5, [], []⟩, .event ⟨none, [], []⟩, .event ⟨none, [], []⟩]

theorem user_count_reuse :
    (callsMachine five).Always Counts (firstStage five newUser 8 10000) reuse := by
  refine user_count five newUser 8 10000 reuse ⟨?_, ?_, ?_, ?_, ?_, ?_, ?_, ?_, ?_, ?_, ?_, trivial⟩
  · refine ⟨rfl, rfl, by decide, by decide, fun e he => ?_⟩
    obtain rfl : e = readable 3 := by simpa using he
    exact ⟨_, rfl, rfl, fun _ => rfl, fun e => (by cases e), rfl⟩
  · refine fun _ => ⟨_, _, rfl, fun c hc => ?_, by simp [takeEvent, readable, five]⟩
    obtain rfl : 5 = c := Option.some.inj hc
    exact ⟨⟨by decide, rfl⟩, by decide⟩
  · intro e
    cases e
  · intro e
    cases e
  · refine ⟨rfl, rfl, by decide, by decide, fun e he => ?_⟩
    obtain rfl : e = { readable 5 with hup := true } := by simpa using he
    exact ⟨_, rfl, rfl, fun _ => rfl, fun e => (by cases e), rfl⟩
  · exact fun _ => ⟨_, _, rfl, fun _ e => (by cases e),
      by simp [takeEvent, readable, five, Event.down]⟩
  · intro e
    cases e
  · refine ⟨rfl, rfl, by decide, by decide, fun e he => ?_⟩
    obtain rfl : e = readable 3 := by simpa using he
    exact ⟨_, rfl, rfl, fun _ => rfl, fun e => (by cases e), rfl⟩
  · refine fun _ => ⟨_, _, rfl, fun c hc => ?_, by simp [takeEvent, readable, five]⟩
    obtain rfl : 5 = c := Option.some.inj hc
    exact ⟨⟨by decide, rfl⟩, by decide⟩
  · intro e
    cases e
  · intro e
    cases e

/-- The same bounds where an event is one step. -/
theorem userCount_bounds (g : Setup) (users : Int → User) (threadNumber maxRequests : Nat)
    {steps : List Step} (hv : (machine g).Valid (start g users threadNumber maxRequests) steps) :
    0 ≤ ((machine g).run (start g users threadNumber maxRequests) steps).userCount ∧
      ((machine g).run (start g users threadNumber maxRequests) steps).userCount ≤ maxFd := by
  obtain ⟨sts, hvs, hserver, -⟩ :=
    @run_calls g (firstStage g users threadNumber maxRequests) rfl steps hv
  have hinv := Machine.run_inv callStep_inv (first_inv g users threadNumber maxRequests) hvs
  have hcounts := hinv.tally.counts
  have hstart : (firstStage g users threadNumber maxRequests).server =
      start g users threadNumber maxRequests := rfl
  rw [hstart] at hserver
  rw [← hserver]
  exact ⟨hcounts.nonneg, hcounts.le⟩

end MainLoop
end Unpvol1
