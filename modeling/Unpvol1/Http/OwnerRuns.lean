import Mathlib.Data.List.Nodup
import Unpvol1.Http.OneOwner

/-!
# Http.OwnerRuns

The owners of the connections over whole runs of the server.

* `Carries`   — a step keeps the invariant, and the owners each connection has. One lemma for each
  step: `report_carries`, `client_carries`, `listen_carries`, `pop_carries`, `process_carries`.
* `step_lost` — a request the queue does not take leaves its connection without an owner.
* `owned_iff` — every connection keeps an owner just as long as no `append` finds the queue full.
-/

namespace Unpvol1
namespace MainLoop

/-! ## What a step does -/

/-- The invariant holds after the step, and what a connection had for owners it has, or has one. -/
structure Carries (g : Setup) (s s' : Server) : Prop where
  inv : Inv g s'
  owners : ∀ fd, Client g s' fd → (view s' fd).owners = 1 ∨
    (Client g s fd ∧ (view s' fd).owners = (view s fd).owners)

theorem Carries.owned {g : Setup} {s s' : Server} (h : Carries g s s') (ho : Owned g s) :
    Owned g s' := by
  intro fd hc
  rw [oneOwner_iff]
  rcases h.owners fd hc with h1 | ⟨hcs, heq⟩
  · exact h1
  · exact heq.trans ((oneOwner_iff s fd).mp (ho fd hcs))

theorem Carries.trans {g : Setup} {s s₁ s' : Server} (h : Carries g s s₁) (h' : Carries g s₁ s') :
    Carries g s s' := by
  refine ⟨h'.inv, fun fd hc => ?_⟩
  rcases h'.owners fd hc with h1 | ⟨hc₁, heq⟩
  · exact .inl h1
  · rw [heq]
    exact h.owners fd hc₁

theorem carries_update {g : Setup} {s s' : Server} (fd : Int) {v : View} (hi : Inv g s)
    (hv : view s' = Function.update (view s) fd v) (hf : Fine g fd v)
    (ho : v.Client g fd → v.owners = 1 ∨ (Client g s fd ∧ v.owners = (view s fd).owners))
    (hb : ∀ e ∈ s'.batch, e ∈ s.batch) : Carries g s s' := by
  refine ⟨⟨fun d => ?_, fun e he => hi.asked e (hb e he)⟩, fun d hc => ?_⟩
  · rw [hv]
    by_cases hd : d = fd
    · subst hd
      simpa using hf
    · simpa [hd] using hi.fine d
  · have hcv : (view s' d).Client g d := hc
    rw [hv] at hcv ⊢
    by_cases hd : d = fd
    · subst hd
      simpa using ho (by simpa using hcv)
    · rw [Function.update_of_ne hd] at hcv ⊢
      exact .inr ⟨hcv, rfl⟩

theorem carries_same {g : Setup} {s s' : Server} (hi : Inv g s) (hv : view s' = view s)
    (hb : ∀ e ∈ s'.batch, e ∈ s.batch) : Carries g s s' :=
  carries_update 0 hi (by rw [hv, Function.update_eq_self]) (hi.fine 0)
    (fun hc => .inr ⟨hc, rfl⟩) hb

theorem Passed.carries {g : Setup} {s s₁ s' : Server} {fd : Int} {v₁ : View} (hi : Inv g s)
    (hv : MainLoop.view s₁ = Function.update (MainLoop.view s) fd v₁)
    (hb : ∀ e ∈ s₁.batch, e ∈ s.batch) (h : Passed g fd s₁ s') : Carries g s s' := by
  obtain ⟨v, hv', hf, ho⟩ := h.view
  refine carries_update fd hi ?_ hf (fun hc => .inl (ho hc)) (by rw [h.batch]; exact hb)
  rw [hv', hv, Function.update_idem]

/-- A connection a thread handles is an open one, and has no other owner. -/
theorem Inv.in_hand {g : Setup} {s : Server} (hi : Inv g s) (fd : Int)
    (hh : (view s fd).processing ≠ 0 ∨ (fd ≠ g.listenfd ∧ (view s fd).reported ≠ 0)) :
    Client g s fd ∧ armed s fd = false ∧ queued s fd = 0 ∧ handlers s fd = 1 := by
  have hf := hi.fine fd
  have hc : (view s fd).Client g fd := by
    by_contra hc
    obtain ⟨-, hp, hr⟩ := hf.stray hc
    rcases hh with hh | ⟨hl, hh⟩
    · exact hh hp
    · exact hh (hr hl).2
  obtain ⟨-, hle, -⟩ := hf.own hc
  have hv := owners_view s fd
  have hpos := handlers_view s fd
  refine ⟨hc, ?_, ?_, ?_⟩
  · cases ha : armed s fd with
    | false => rfl
    | true =>
      rw [ha] at hv
      simp only [Bool.toNat_true] at hv
      omega
  · omega
  · omega

theorem Inv.minus_one {g : Setup} {s : Server} (hi : Inv g s) : s.kernel.interest (-1) = none := by
  have hf := hi.fine (-1)
  have hc : ¬(view s (-1)).Client g (-1) := fun hc => by
    have := hf.nonneg hc.1
    omega
  have hl : -1 ≠ g.listenfd := fun e => by
    have := g.nonneg g.listenfd g.listens
    omega
  exact ((hf.stray hc).2.2 hl).1

/-- What is left of the connection when the thread that handles it has handed it on. -/
theorem Inv.loose {g : Setup} {s s₁ : Server} (hi : Inv g s) {fd : Int} (hc : Client g s fd)
    (hk : s₁.kernel = s.kernel) (hu : s₁.users = s.users) (hq : queued s₁ fd = 0)
    (hh : handlers s₁ fd = 0) : Loose g s₁ fd := by
  obtain ⟨hs, -, hr⟩ := (hi.fine fd).own hc
  refine ⟨by simpa [Client, hk] using hc, (hi.fine fd).nonneg hc.1, ?_, ?_, hq, hh⟩
  · rw [hu]
    exact hs
  · rw [hk]
    exact hr

theorem mem_batch {s : Server} {e e' : Event} {rest : List Event} (hb : s.batch = e :: rest)
    (h : e' ∈ rest) : e' ∈ s.batch := by
  rw [hb]
  exact List.mem_cons_of_mem _ h

theorem view_batch {s : Server} {e : Event} {rest : List Event} (hb : s.batch = e :: rest) :
    view { s with batch := rest } = Function.update (view s) e.fd
      { view s e.fd with reported := (rest.map Event.fd).count e.fd } := by
  funext d
  by_cases hd : d = e.fd
  · subst hd
    simp [view, queued]
  · have hne : ¬e.fd = d := fun h => hd h.symm
    simp [view, queued, hd, hb, hne]

theorem client_carries {g : Setup} {s s' : Server} (hi : Inv g s) {e : Event} {rest : List Event}
    {r : Replies} (hb : s.batch = e :: rest) (hne : e.fd ≠ g.listenfd)
    (hs : handleClient g.semValueMax { s with batch := rest } e r = some s')
    (hroom : Appends g s e r → s.threads.pool.workqueue.length ≤ s.threads.pool.maxRequests) :
    Carries g s s' := by
  have hreported : (view s e.fd).reported = (rest.map Event.fd).count e.fd + 1 := by
    simp [view, hb]
  obtain ⟨hc, hidle, hq, hh⟩ := hi.in_hand e.fd (.inr ⟨hne, by omega⟩)
  have hnone : handlers { s with batch := rest } e.fd = 0 := by
    have hv := handlers_view s e.fd
    have hv' := handlers_view { s with batch := rest } e.fd
    have hrest : (view { s with batch := rest } e.fd).reported =
        (rest.map Event.fd).count e.fd := rfl
    have hproc : (view { s with batch := rest } e.fd).processing = (view s e.fd).processing := rfl
    omega
  have hloose : Loose g { s with batch := rest } e.fd := hi.loose hc rfl rfl hq hnone
  refine (handleClient_passed hloose hidle ?_ hne hs ?_).carries hi (view_batch hb)
    fun _ => mem_batch hb
  · exact hi.asked e (by simp [hb])
  · rintro ⟨hl, hdown, hin, hret⟩
    rw [read_fst] at hret
    exact hroom ⟨hl, hdown, hin, hret⟩

/-- Taken off the batch and not queued, the connection is left without an owner. -/
theorem client_lost {g : Setup} {s s' : Server} (hi : Inv g s) {e : Event} {rest : List Event}
    {r : Replies} (hb : s.batch = e :: rest)
    (hs : handleClient g.semValueMax { s with batch := rest } e r = some s')
    (ha : Appends g s e r)
    (hfull : s.threads.pool.workqueue.length > s.threads.pool.maxRequests) :
    Inv g s' ∧ ¬Owned g s' := by
  have ha' : Appends g { s with batch := rest } e r := by
    obtain ⟨hl, hdown, hin, hret⟩ := ha
    exact ⟨hl, hdown, hin, by rw [read_fst]; exact hret⟩
  obtain ⟨hview, hbatch⟩ := handleClient_full ha' hfull hs
  rw [view_batch hb] at hview
  have hreported : (view s e.fd).reported = (rest.map Event.fd).count e.fd + 1 := by
    simp [view, hb]
  obtain ⟨hc, hidle, hq, hh⟩ := hi.in_hand e.fd (.inr ⟨ha.1, by omega⟩)
  have hv := handlers_view s e.fd
  have hlost : (view s' e.fd).owners = 0 := by
    rw [hview, Function.update_self, View.owners_unarmed]
    · exact hq
    · exact hidle
    · dsimp only
      omega
  have hf := hi.fine e.fd
  constructor
  · refine ⟨fun d => ?_, fun e' he' => hi.asked e' ?_⟩
    · by_cases hd : d = e.fd
      · subst hd
        obtain ⟨hsock, -, hr⟩ := hf.own hc
        have hown := hlost
        rw [hview, Function.update_self] at hown ⊢
        exact ⟨hf.setup, hf.nonneg, fun _ => ⟨hsock, by omega, hr⟩, fun hn => absurd hc hn⟩
      · rw [hview, Function.update_of_ne hd]
        exact hi.fine d
    · rw [hbatch] at he'
      exact mem_batch hb he'
  · intro ho
    have hcs' : Client g s' e.fd := by
      have hop : (view s' e.fd).opened = (view s e.fd).opened := by
        rw [hview, Function.update_self]
      exact ⟨hop.trans hc.1, hc.2⟩
    have := (oneOwner_iff s' e.fd).mp (ho e.fd hcs')
    omega

theorem view_init {s : Server} {connfd : Int} (h : s.kernel.opened connfd = true)
    (hn : s.kernel.interest connfd = none) : view (s.init connfd) = Function.update (view s) connfd
      { view s connfd with
        registered := some { ev := .epollin, oneshot := true, enabled := true }
        sockfd := connfd } := by
  funext d
  by_cases hd : d = connfd
  · subst hd
    simp [view, Server.init, User.init, addfd, Kernel.ctlAdd, h, hn, queued]
  · simp [view, Server.init, addfd, hd, queued, Kernel.ctlAdd_interest_of_ne _ _ hd]

/-- A descriptor that is not open is not queued, reported, or registered. -/
theorem Inv.fresh {g : Setup} {s : Server} (hi : Inv g s) {fd : Int}
    (h : s.kernel.opened fd = false) : g.opened fd = false ∧ s.kernel.interest fd = none ∧
      queued s fd = 0 ∧ handlers s fd = 0 := by
  have hf := hi.fine fd
  have hg : g.opened fd = false := by
    cases hg : g.opened fd with
    | false => rfl
    | true => exact absurd (hf.setup hg) (by simp [view, h])
  have hl : fd ≠ g.listenfd := fun e => by
    rw [e, g.listens] at hg
    cases hg
  have hc : ¬(view s fd).Client g fd := fun hc => by
    have : s.kernel.opened fd = true := hc.1
    rw [h] at this
    cases this
  obtain ⟨hq, hp, hrest⟩ := hf.stray hc
  obtain ⟨hr, hb⟩ := hrest hl
  refine ⟨hg, hr, hq, ?_⟩
  rw [handlers_view]
  omega

theorem listen_carries {g : Setup} {s : Server} (hi : Inv g s) {accepted : Option Int}
    (hfresh : ∀ connfd ∈ accepted, s.kernel.Fresh connfd) :
    Carries g s (handleListen s accepted) := by
  cases accepted with
  | none => exact carries_same hi rfl fun _ he => he
  | some connfd =>
    obtain ⟨hpos, hclosed⟩ := hfresh connfd rfl
    obtain ⟨hg, hn, hq, hh⟩ := hi.fresh hclosed
    have hopen : view { s with kernel := s.kernel.openFd connfd } =
        Function.update (view s) connfd
          { view s connfd with registered := none, opened := true } := by
      funext d
      by_cases hd : d = connfd
      · subst hd
        simp [view, queued]
      · simp [view, queued, hd]
    simp only [handleListen]
    by_cases hmax : s.userCount ≥ maxFd
    · simp only [hmax, if_true]
      refine carries_same hi ?_ fun _ he => he
      funext d
      by_cases hd : d = connfd
      · subst hd
        simp [view, queued, hn, hclosed]
      · simp [view, queued, hd]
    · simp only [hmax, if_false]
      have howners : View.owners { view s connfd with
          registered := some { ev := .epollin, oneshot := true, enabled := true }
          opened := true
          sockfd := connfd } = 1 := View.owners_armed rfl hq hh
      refine carries_update connfd hi ?_ ?_ (fun _ => .inl howners) fun _ he => he
      · rw [view_init (by simp) (by simp), hopen, Function.update_idem, Function.update_self]
      · refine ⟨fun _ => rfl, fun _ => hpos, fun _ => ?_, fun hc => absurd ⟨rfl, hg⟩ hc⟩
        exact ⟨rfl, Nat.le_of_eq howners, _, rfl, rfl⟩

/-- The event of the listening socket. -/
theorem drop_carries {g : Setup} {s : Server} (hi : Inv g s) {e : Event} {rest : List Event}
    (hb : s.batch = e :: rest) (he : e.fd = g.listenfd) :
    Carries g s { s with batch := rest } := by
  have hc : ¬(view s e.fd).Client g e.fd := fun hc => by
    have := hc.2
    rw [he, g.listens] at this
    cases this
  have hf := hi.fine e.fd
  refine carries_update e.fd hi (view_batch hb) ?_ (fun hc' => absurd hc' hc)
    fun _ => mem_batch hb
  refine ⟨hf.setup, hf.nonneg, fun hc' => absurd hc' hc, fun _ => ?_⟩
  obtain ⟨hq, hp, -⟩ := hf.stray hc
  exact ⟨hq, hp, fun hl => absurd he hl⟩

/-! ### The workers -/

theorem view_threads (s : Server) (t : Threadpool.State Int) (fd : Int) :
    view { s with threads := t } fd = { view s fd with
      queued := t.pool.workqueue.count (some fd)
      processing := t.workers.count (.processing fd) } := rfl

/-- A worker that neither takes a request nor is done with one. -/
theorem move_carries {g : Setup} {s : Server} (hi : Inv g s) {t : Threadpool.State Int}
    (hq : ∀ fd, t.pool.workqueue.count (some fd) = queued s fd)
    (hp : ∀ fd, t.workers.count (.processing fd) = s.threads.workers.count (.processing fd)) :
    Carries g s { s with threads := t } := by
  refine carries_same hi ?_ fun _ he => he
  funext fd
  rw [view_threads, hq, hp]
  rfl

theorem count_stay {ws : List (Threadpool.Worker Int)} {j : Nat} {w w' : Threadpool.Worker Int}
    (hj : ws[j]? = some w) (hw : ∀ fd, w ≠ .processing fd) (hw' : ∀ fd, w' ≠ .processing fd)
    (fd : Int) : (ws.set j w').count (.processing fd) = ws.count (.processing fd) :=
  Threads.count_stay hj (by simp [hw fd, hw' fd])

theorem count_take {ws : List (Threadpool.Worker Int)} {j : Nat} {w : Threadpool.Worker Int}
    (hj : ws[j]? = some w) (hw : ∀ fd, w ≠ .processing fd) (request fd : Int) :
    (ws.set j (.processing request)).count (.processing fd) =
      ws.count (.processing fd) + if fd = request then 1 else 0 := by
  have := Threads.count_move (p := (· == .processing fd)) hj (.processing request)
  simpa [List.count, hw fd, eq_comm (a := request)] using this

theorem count_leave {ws : List (Threadpool.Worker Int)} {j : Nat} {request : Int}
    (hj : ws[j]? = some (.processing request)) {w : Threadpool.Worker Int}
    (hw : ∀ fd, w ≠ .processing fd) (fd : Int) :
    (ws.set j w).count (.processing fd) + (if fd = request then 1 else 0) =
      ws.count (.processing fd) := by
  have := Threads.count_move (p := (· == .processing fd)) hj w
  simpa [List.count, hw fd, eq_comm (a := request)] using this

/-- A request passes from the queue to the worker that takes it. -/
theorem pop_carries {g : Setup} {s : Server} (hi : Inv g s) {j : Nat}
    (hj : s.threads.workers[j]? = some .woken) :
    Carries g s { s with threads := Threadpool.stepPop s.threads j } := by
  have hwoken : ∀ fd, (.woken : Threadpool.Worker Int) ≠ .processing fd := fun _ => nofun
  have hloop : ∀ fd, (.loop : Threadpool.Worker Int) ≠ .processing fd := fun _ => nofun
  cases hq : s.threads.pool.workqueue with
  | nil =>
    simp only [Threadpool.stepPop, Threadpool.popLocked, hq]
    exact move_carries hi (fun _ => rfl) (count_stay hj hwoken hloop)
  | cons request rest =>
    cases request with
    | none =>
      simp only [Threadpool.stepPop, Threadpool.popLocked, hq]
      exact move_carries hi (fun fd => by simp [queued, hq]) (count_stay hj hwoken hloop)
    | some request =>
      simp only [Threadpool.stepPop, Threadpool.popLocked, hq]
      have hqueued : queued s request = rest.count (some request) + 1 := by simp [queued, hq]
      have howners : View.owners { view s request with
          queued := rest.count (some request)
          processing := (view s request).processing + 1 } = (view s request).owners := by
        have hv : (view s request).queued = rest.count (some request) + 1 := hqueued
        simp only [View.owners, View.armed, hv]
        omega
      have hf := hi.fine request
      have hc : (view s request).Client g request := by
        by_contra hc
        have : queued s request = 0 := (hf.stray hc).1
        omega
      obtain ⟨hs, hle, hr⟩ := hf.own hc
      refine carries_update request hi ?_ ?_ (fun _ => .inr ⟨hc, howners⟩) fun _ he => he
      · funext fd
        rw [view_threads]
        have hcount := count_take hj hwoken request fd
        by_cases hfd : fd = request
        · subst hfd
          simpa [view] using hcount
        · have hne : ¬request = fd := fun e => hfd e.symm
          simpa [view, queued, hq, hfd, hne] using hcount
      · refine ⟨hf.setup, hf.nonneg, fun _ => ⟨hs, ?_, hr⟩, fun hn => absurd hc hn⟩
        rw [howners]
        exact hle

theorem process_carries {g : Setup} {s : Server} (hi : Inv g s) {j : Nat} {fd : Int}
    (hj : s.threads.workers[j]? = some (.processing fd)) (p : Parsed) :
    Carries g s (stepProcess g s j p) := by
  have hcount := count_leave hj (w := .loop) fun _ => nofun
  have hself := hcount fd
  rw [if_pos rfl] at hself
  have hproc : (view s fd).processing = s.threads.workers.count (.processing fd) := rfl
  obtain ⟨hc, hidle, hq, hh⟩ := hi.in_hand fd (.inl (by omega))
  simp only [stepProcess, hj, Threadpool.step]
  have hnone : handlers { s with
      threads := { s.threads with workers := s.threads.workers.set j .loop } } fd = 0 := by
    simp only [handlers] at hh ⊢
    omega
  have hview : view { s with
      threads := { s.threads with workers := s.threads.workers.set j .loop } } =
        Function.update (view s) fd { view s fd with
          processing := (s.threads.workers.set j .loop).count (.processing fd) } := by
    funext d
    by_cases hd : d = fd
    · subst hd
      simp [view, queued]
    · have := hcount d
      rw [if_neg hd, Nat.add_zero] at this
      simp [view, queued, hd, this]
  have hloose : Loose g { s with
      threads := { s.threads with workers := s.threads.workers.set j .loop } } fd :=
    hi.loose hc rfl rfl hq hnone
  exact (process_passed hloose hi.minus_one p).carries hi hview fun _ he => he

/-! ### `epoll_wait` -/

theorem report_carries {g : Setup} {s : Server} (hi : Inv g s) {events : List Event}
    (hb : s.batch = []) (hnd : (events.map Event.fd).Nodup)
    (he : ∀ e ∈ events, ∃ r, s.kernel.interest e.fd = some r ∧ Reportable r e) :
    Carries g s { s with kernel := report s.kernel events, batch := events } := by
  have hout : ∀ fd, fd ∉ events.map Event.fd →
      view { s with kernel := report s.kernel events, batch := events } fd = view s fd := by
    intro fd hfd
    have hzero := List.count_eq_zero_of_not_mem hfd
    simp only [view, report, hb, hzero, if_neg hfd]
    rfl
  have hin : ∀ fd, fd ∈ events.map Event.fd → ∃ r, s.kernel.interest fd = some r ∧
      r.enabled = true ∧
      view { s with kernel := report s.kernel events, batch := events } fd =
        { view s fd with registered := some r.reported, reported := 1 } := by
    intro fd hfd
    obtain ⟨e, hmem, rfl⟩ := List.mem_map.mp hfd
    obtain ⟨r, hr, hrep⟩ := he e hmem
    have hone := List.count_eq_one_of_mem hnd hfd
    refine ⟨r, hr, hrep.enabled, ?_⟩
    simp only [view, report, hone, hr, if_pos hfd, Option.map_some]
    rfl
  have howners : ∀ fd, fd ∈ events.map Event.fd → (view s fd).Client g fd →
      (view { s with kernel := report s.kernel events, batch := events } fd).owners =
        (view s fd).owners := by
    intro fd hfd hc
    obtain ⟨r, hr, hen, hv⟩ := hin fd hfd
    obtain ⟨-, -, r', hr', hshot⟩ := (hi.fine fd).own hc
    obtain rfl : r' = r := Option.some.inj (hr'.symm.trans hr)
    have hzero : (s.batch.map Event.fd).count fd = 0 := by simp [hb]
    rw [hv]
    simp only [View.owners, View.armed, view, hr, Option.any_some, Registered.reported, hshot,
      hen, hzero, if_true, Bool.toNat_true, Bool.toNat_false]
    omega
  refine ⟨⟨fun fd => ?_, fun e hmem => ?_⟩, fun fd hc => .inr ⟨hc, ?_⟩⟩
  · by_cases hfd : fd ∈ events.map Event.fd
    · have hf := hi.fine fd
      have hown := howners fd hfd
      obtain ⟨r, hr, hen, hv⟩ := hin fd hfd
      rw [hv] at hown ⊢
      refine ⟨hf.setup, hf.nonneg, fun hc => ?_, fun hc => ?_⟩
      · obtain ⟨hs, hle, r', hr', hshot⟩ := hf.own hc
        obtain rfl : r' = r := Option.some.inj (hr'.symm.trans hr)
        refine ⟨hs, by rw [hown hc]; exact hle, _, rfl, ?_⟩
        simp [Registered.reported, hshot]
      · obtain ⟨hq, hp, hrest⟩ := hf.stray hc
        refine ⟨hq, hp, fun hl => ?_⟩
        have hnone : s.kernel.interest fd = none := (hrest hl).1
        rw [hnone] at hr
        cases hr
    · rw [hout fd hfd]
      exact hi.fine fd
  · obtain ⟨r, -, hrep⟩ := he e hmem
    exact hrep.nonempty
  · by_cases hfd : fd ∈ events.map Event.fd
    · exact howners fd hfd hc
    · rw [hout fd hfd]

/-! ## Runs -/

theorem inv_start (g : Setup) (users : Int → User) (threadNumber maxRequests : Nat) :
    Inv g (start g users threadNumber maxRequests) := by
  refine ⟨fun fd => ?_, fun e he => by simp [start] at he⟩
  have hopened : (start g users threadNumber maxRequests).kernel.opened = g.opened := by
    simp [start, addfd]
  have hc : ¬(view (start g users threadNumber maxRequests) fd).Client g fd := by
    rintro ⟨ho, hg⟩
    have ho' : (start g users threadNumber maxRequests).kernel.opened fd = true := ho
    rw [hopened, hg] at ho'
    cases ho'
  refine ⟨fun hg => ?_, fun ho => ?_, fun hc' => absurd hc' hc, fun _ => ⟨rfl, ?_, fun hl => ?_⟩⟩
  · exact (congrFun hopened fd).trans hg
  · exact g.nonneg fd ((congrFun hopened fd).symm.trans ho)
  · simp [view, start, Threadpool.start, List.count_replicate]
  · refine ⟨?_, rfl⟩
    simp only [view, start, addfd]
    rw [Kernel.ctlAdd_interest_of_ne _ _ hl]

theorem owned_start (g : Setup) (users : Int → User) (threadNumber maxRequests : Nat) :
    Owned g (start g users threadNumber maxRequests) := by
  rintro fd ⟨ho, hg⟩
  simp [start, addfd, hg] at ho

theorem event_carries {g : Setup} {s : Server} (hi : Inv g s) {r : Replies}
    (hok : enabled g s (.event r)) (hroom : Roomy g s (.event r)) :
    Carries g s (stepEvent g s r) := by
  obtain ⟨e, rest, hb, haccept, hret⟩ := hok
  simp only [Roomy, hb, List.head?_cons, Option.mem_some_iff, forall_eq'] at hroom
  simp only [stepEvent, hb]
  by_cases hl : e.fd = g.listenfd
  · simp only [handle, hl, if_true, Option.getD_some]
    have hdrop := drop_carries hi hb hl
    exact hdrop.trans (listen_carries hdrop.inv fun connfd hc => (haccept connfd hc).1)
  · obtain ⟨s', hs'⟩ := Option.ne_none_iff_exists'.mp hret
    rw [hs', Option.getD_some]
    simp only [handle, hl, if_false] at hs'
    exact client_carries hi hb hl hs' hroom

theorem step_carries {g : Setup} {s : Server} (hi : Inv g s) {st : Step} (hok : enabled g s st)
    (hroom : Roomy g s st) : Carries g s (step g s st) := by
  have hloop : ∀ fd, (.loop : Threadpool.Worker Int) ≠ .processing fd := fun _ => nofun
  have hwaiting : ∀ fd, (.waiting : Threadpool.Worker Int) ≠ .processing fd := fun _ => nofun
  cases st with
  | epollWait events =>
    obtain ⟨hb, -, hnd, he⟩ := hok
    exact report_carries hi hb hnd he
  | event r => exact event_carries hi hok hroom
  | test j =>
    refine move_carries hi (fun _ => rfl) (count_stay hok hloop fun fd => ?_)
    cases s.threads.pool.stop <;> nofun
  | wait j eintr =>
    refine move_carries hi (fun fd => ?_) (count_stay hok.1 hwaiting fun _ => nofun)
    simp only [Threadpool.step, Threadpool.wait]
    split <;> rfl
  | pop j => exact pop_carries hi hok
  | process j p =>
    obtain ⟨fd, hj⟩ := hok
    exact process_carries hi hj p

/-- A request the queue does not take leaves its connection without an owner. -/
theorem step_lost {g : Setup} {s : Server} (hi : Inv g s) {st : Step} (hok : enabled g s st)
    (hroom : ¬Roomy g s st) : Inv g (step g s st) ∧ ¬Owned g (step g s st) := by
  cases st with
  | event r =>
    obtain ⟨e, rest, hb, -, hret⟩ := hok
    simp only [Roomy, hb, List.head?_cons, Option.mem_some_iff, forall_eq', Classical.not_imp,
      Nat.not_le] at hroom
    obtain ⟨ha, hfull⟩ := hroom
    obtain ⟨s', hs'⟩ := Option.ne_none_iff_exists'.mp hret
    simp only [step, stepEvent, hb, hs', Option.getD_some]
    simp only [handle, ha.1, if_false] at hs'
    exact client_lost hi hb hs' ha hfull
  | _ => exact absurd trivial hroom

theorem inv_step {g : Setup} (s : Server) (st : Step) (hi : Inv g s)
    (hok : (machine g).ok s st) : Inv g ((machine g).step s st) := by
  by_cases hroom : Roomy g s st
  · exact (step_carries hi hok hroom).inv
  · exact (step_lost hi hok hroom).1

/-- Whatever the order of events and worker steps, every open connection is in every state armed,
queued once or handled by one thread, just when no request that `main` appends finds more than
`max_requests` in the queue. -/
theorem owned_iff (g : Setup) (users : Int → User) (threadNumber maxRequests : Nat)
    (steps : List Step)
    (hv : (machine g).Valid (start g users threadNumber maxRequests) steps) :
    (machine g).Always (Owned g) (start g users threadNumber maxRequests) steps ↔
      (machine g).Each (Roomy g) (start g users threadNumber maxRequests) steps := by
  refine Machine.always_iff_each inv_step ?_ (inv_start g users threadNumber maxRequests)
    (owned_start g users threadNumber maxRequests) hv
  intro s st hi hok ho
  constructor
  · intro ho'
    by_contra hroom
    exact (step_lost hi hok hroom).2 ho'
  · intro hroom
    exact (step_carries hi hok hroom).owned ho

/-! ### A full queue -/

/-- `main` with the standard streams, the listening socket and epoll. -/
def five : Setup where
  listenfd := 3
  opened := fun fd => decide (0 ≤ fd ∧ fd < 5)
  semValueMax := 2147483647
  listens := by decide
  nonneg := fun fd h => (of_decide_eq_true h).1

def newUser (_ : Int) : User where
  sockfd := 0
  readIdx := 0
  out := HttpConnWrite.request false [] []

def readable (fd : Int) : Event where
  fd := fd
  rdhup := false
  hup := false
  err := false
  epollin := true
  epollout := false

def connects (fd : Int) : List Step := [.epollWait [readable 3], .event ⟨some fd, [], []⟩]

/-- One byte arrives. -/
def sends (fd : Int) : List Step :=
  [.epollWait [readable fd], .event ⟨none, [.bytes 1, .again], []⟩]

def visits : Nat → List Step
  | 0 => []
  | n + 1 => visits n ++ (connects (5 + n) ++ sends (5 + n))

/-- After `k` visits, with no worker scheduled. -/
structure Visited (m k : Nat) (s : Server) : Prop where
  batch : s.batch = []
  count : s.userCount = k
  queue : s.threads.pool.workqueue.length = k
  room : s.threads.pool.maxRequests = m
  fresh : ∀ fd : Int, 5 + k ≤ fd → s.kernel.opened fd = false
  listen : s.kernel.interest 3 = some { ev := .epollin, oneshot := false, enabled := true }

/-- The next client has connected. -/
structure Met (m k : Nat) (s : Server) : Prop where
  batch : s.batch = []
  count : s.userCount = (k + 1 : Nat)
  queue : s.threads.pool.workqueue.length = k
  room : s.threads.pool.maxRequests = m
  fresh : ∀ fd : Int, 5 + (k + 1 : Nat) ≤ fd → s.kernel.opened fd = false
  listen : s.kernel.interest 3 = some { ev := .epollin, oneshot := false, enabled := true }
  client : s.kernel.interest (5 + k) = some { ev := .epollin, oneshot := true, enabled := true }
  unread : (s.users (5 + k)).readIdx = 0

theorem met_of_visited {m k : Nat} (hk : k ≤ m + 1) (hm : m < 65530) {s : Server}
    (h : Visited m k s) :
    (machine five).Valid s (connects (5 + k)) ∧
      Met m k ((machine five).run s (connects (5 + k))) := by
  have hlt : ¬s.userCount ≥ maxFd := by
    rw [h.count, maxFd]
    omega
  have hfresh : s.kernel.opened (5 + k) = false := h.fresh _ (Int.le_refl _)
  have hne : (3 : Int) ≠ 5 + k := by omega
  have hstep : (machine five).run s (connects (5 + k)) =
      { s with kernel := (report s.kernel [readable 3]).openFd (5 + k), batch := [] }.init
        (5 + k) := by
    simp only [connects, Machine.run_cons, Machine.run_nil, machine, step, stepEvent, handle, five,
      readable, if_true, handleListen, hlt, if_false, Option.getD_some]
  constructor
  · refine ⟨⟨h.batch, by decide, by decide, fun e he => ?_⟩,
      ⟨readable 3, [], rfl, ?_, by simp [handle, readable, five]⟩, trivial⟩
    · obtain rfl : e = readable 3 := by simpa using he
      exact ⟨_, h.listen, rfl, fun _ => rfl, nofun, rfl⟩
    · intro connfd hconnfd
      obtain rfl : 5 + (k : Int) = connfd := Option.some.inj hconnfd
      exact ⟨⟨by omega, hfresh⟩, by rw [maxFd]; omega⟩
  · rw [hstep]
    constructor
    · rfl
    · simp [Server.init, h.count]
    · exact h.queue
    · exact h.room
    · intro fd hfd
      have hfd' : fd ≠ 5 + k := by omega
      simpa [Server.init, addfd, report, hfd'] using h.fresh fd (by omega)
    · simp [Server.init, addfd, Kernel.ctlAdd_interest_of_ne _ _ hne, hne, report, readable,
        h.listen, Registered.reported]
    · simp [Server.init, addfd, Kernel.ctlAdd]
    · simp [Server.init, User.init]

theorem run_sends {m k : Nat} {s : Server} (h : Met m k s) :
    (machine five).Valid s (sends (5 + k)) ∧
      (machine five).run s (sends (5 + k)) =
        (append five.semValueMax (
          { s with kernel := report s.kernel [readable (5 + k)], batch := [] }.setUser (5 + k)
            { s.users (5 + k) with readIdx := 1 }) (5 + k)).1 := by
  have hne : ¬(5 + k : Int) = 3 := by omega
  have hread : read { s with kernel := report s.kernel [readable (5 + k)], batch := [] } (5 + k)
      [.bytes 1, .again] = some (true,
        { s with kernel := report s.kernel [readable (5 + k)], batch := [] }.setUser (5 + k)
          { s.users (5 + k) with readIdx := 1 }) := by
    simp [read, readLoop, h.unread, HttpConn.readBufferSize]
  have hhandle : handle five { s with kernel := report s.kernel [readable (5 + k)], batch := [] }
      (readable (5 + k)) ⟨none, [.bytes 1, .again], []⟩ = some (append five.semValueMax (
        { s with kernel := report s.kernel [readable (5 + k)], batch := [] }.setUser (5 + k)
          { s.users (5 + k) with readIdx := 1 }) (5 + k)).1 := by
    have hl : ¬(5 + k : Int) = five.listenfd := hne
    have hdown : (readable (5 + k)).down = false := rfl
    have hin : (readable (5 + k)).epollin = true := rfl
    have hfd : (readable (5 + k)).fd = 5 + k := rfl
    simp only [handle, hl, if_false, handleClient, hdown, hin, hfd, hread, Bool.false_eq_true,
      if_true, Option.map_some]
  constructor
  · refine ⟨⟨h.batch, by simp [maxEventNumber], by simp, fun e he => ?_⟩,
      ⟨readable (5 + k), [], rfl, fun c hc => (by cases hc), ?_⟩, trivial⟩
    · obtain rfl : e = readable (5 + k) := by simpa using he
      exact ⟨_, h.client, rfl, fun _ => rfl, fun e => (by cases e), rfl⟩
    · exact fun hnone => by
        have := hhandle.symm.trans hnone
        cases this
  · simp only [sends, Machine.run_cons, Machine.run_nil, machine, step, stepEvent]
    rw [hhandle, Option.getD_some]

theorem visited_of_met {m k : Nat} (hk : k ≤ m) {s : Server} (h : Met m k s) :
    Visited m (k + 1) ((machine five).run s (sends (5 + k))) := by
  obtain ⟨-, hrun⟩ := run_sends h
  have hnot : ¬s.threads.pool.workqueue.length > s.threads.pool.maxRequests := by
    rw [h.queue, h.room]
    omega
  have hne : ¬(3 : Int) = 5 + k := by omega
  rw [hrun]
  simp only [append, Threadpool.appendLocked, Server.setUser, hnot, if_false, if_true,
    Threadpool.step, Threadpool.stepAppend, Threadpool.post]
  constructor
  · rfl
  · exact h.count
  · split <;> simp [h.queue]
  · split <;> exact h.room
  · exact h.fresh
  · simp [report, readable, hne, h.listen]

theorem visits_valid {m : Nat} (hm : m < 65530) {s : Server} (h : Visited m 0 s) (n : Nat)
    (hn : n ≤ m + 1) :
    (machine five).Valid s (visits n) ∧ Visited m n ((machine five).run s (visits n)) := by
  induction n with
  | zero => exact ⟨trivial, h⟩
  | succ n ih =>
    obtain ⟨hv, hs⟩ := ih (by omega)
    obtain ⟨hmv, hmet⟩ := met_of_visited (by omega) hm hs
    have hlv := (run_sends hmet).1
    have hnext := visited_of_met (by omega) hmet
    rw [visits, Machine.valid_append, Machine.run_append, Machine.valid_append, Machine.run_append]
    exact ⟨⟨hv, hmv, hlv⟩, hnext⟩

theorem visited_start (m : Nat) : Visited m 0 (start five newUser 8 m) := by
  constructor
  · rfl
  · rfl
  · rfl
  · rfl
  · intro fd hfd
    have hopened : (start five newUser 8 m).kernel.opened fd = decide (0 ≤ fd ∧ fd < 5) := by
      simp [start, addfd, five]
    rw [hopened, decide_eq_false_iff_not]
    omega
  · simp [start, addfd, five, Kernel.ctlAdd]

/-- The queue is full when the byte arrives. -/
theorem sends_lost {m k : Nat} (hk : m < k) {s : Server} (hi : Inv five s) (h : Met m k s) :
    ¬Owned five ((machine five).run s (sends (5 + k))) := by
  obtain ⟨hwait, hevent, -⟩ := (run_sends h).1
  have hlost := @step_lost five _ (inv_step _ _ hi hwait) (.event ⟨none, [.bytes 1, .again], []⟩)
    hevent
  refine (hlost ?_).2
  intro hroom
  have hlen := hroom (readable (5 + k)) rfl ⟨?_, rfl, rfl, ?_⟩
  · have hq : s.threads.pool.workqueue.length ≤ s.threads.pool.maxRequests := hlen
    rw [h.queue, h.room] at hq
    omega
  · simp only [readable, five]
    omega
  · simp [machine, step, read, readLoop, h.unread, HttpConn.readBufferSize, readable]

/-- One visit more than the queue takes requests. -/
theorem visits_lost {m n : Nat} (hm : m < 65530) (hn : n = m + 2) :
    (machine five).Valid (start five newUser 8 m) (visits n) ∧
      ¬(machine five).Always (Owned five) (start five newUser 8 m) (visits n) := by
  subst hn
  obtain ⟨hv, hs⟩ := visits_valid hm (visited_start m) (m + 1) (Nat.le_refl _)
  obtain ⟨hmv, hmet⟩ := met_of_visited (Nat.le_refl _) hm hs
  have hi := Machine.run_inv inv_step (inv_start five newUser 8 m) hv
  have hi' := Machine.run_inv inv_step hi hmv
  refine ⟨?_, fun ha => sends_lost (Nat.lt_succ_self m) hi' hmet ?_⟩
  · rw [visits, Machine.valid_append, Machine.valid_append]
    exact ⟨hv, hmv, (run_sends hmet).1⟩
  · have hlast := ha.last
    rwa [visits, Machine.run_append, Machine.run_append] at hlast

/-- 10002 clients send a request before a worker runs; the last of them is left to nobody. -/
theorem not_owned :
    (machine five).Valid (start five newUser 8 10000) (visits 10002) ∧
      ¬(machine five).Always (Owned five) (start five newUser 8 10000) (visits 10002) :=
  @visits_lost 10000 10002 (by omega) (by omega)

/-- A request that is not all there passes through the queue and a worker, and back to epoll. -/
theorem owned_iff_run :
    (machine five).Always (Owned five) (start five newUser 8 10000)
        (visits 1 ++ [.test 0, .wait 0 false, .pop 0, .process 0 ⟨.noRequest, false, none, 0⟩]) ↔
      (machine five).Each (Roomy five) (start five newUser 8 10000)
        (visits 1 ++
          [.test 0, .wait 0 false, .pop 0, .process 0 ⟨.noRequest, false, none, 0⟩]) := by
  refine owned_iff five newUser 8 10000 _ ?_
  rw [Machine.valid_append]
  refine ⟨(visits_valid (by decide) (visited_start 10000) 1 (by decide)).1, ?_, ⟨?_, ?_⟩, ?_,
    ⟨5, ?_⟩, trivial⟩
  · rfl
  · rfl
  · exact fun _ => Nat.one_pos
  · rfl
  · rfl

end MainLoop
end Unpvol1
