import Unpvol1.Lib.SelfPipe
import Unpvol1.Timer.NonactiveConn

/-!
# Timer.IdleAlarm

How long the server of `Timer.NonactiveConn` puts up with a silent client. `timer_handler` runs when
`main` has read a SIGALRM from its pipe, and sets the next alarm then; so the ticks go on only while
no SIGALRM is lost on the way.

* `World`   — the server, the signals on their way to it, its alarm, and the clock.
* `machine` — its runs. The server is quick: no second passes before it is back in `epoll_wait` and
  has read its signals.
* `Ticking` — the next tick will come, or `main` is about to stop.
* `never_silent_long` — so it is as long as the server runs, and no connection stays open for
  `4 * TIMESLOT` after it was last heard.
-/

namespace Unpvol1
namespace IdleAlarm

open DList NonactiveConn

deriving instance DecidableEq for NonactiveConn.Signal

/-- `sizeof( signals )` -/
def signalsSize : Nat := 1024

/-- `alarm` is when the alarm goes off. -/
structure World where
  run : NonactiveConn.Run
  sig : SelfPipe Signal
  alarm : Option Int
  now : Int

inductive Step where
  | second
  /-- The alarm goes off. -/
  | expire
  /-- Somebody else sends a signal. -/
  | raise (x : Signal)
  /-- `sig_handler` -/
  | deliver (x : Signal)
  | server (i : Input)

/-- The pipe holds something that has been reported or will be. -/
def Due (p : SelfPipe Signal) : Prop :=
  p.pipe.data ≠ [] ∧ (p.ready = true ∨ p.told = true)

/-- `main` is in `epoll_wait`, which has nothing to report but what clients do, and no signal is on
its way. -/
structure AtRest (w : World) : Prop where
  waits : w.run.round = none
  running : ∀ s, w.run.server = some s → s.stopServer = false
  pending : w.sig.pending = []
  due : ¬Due w.sig
  alarm : ∀ t, w.alarm = some t → w.now < t

section
variable (listenfd pipefd : Nat)

/-- The event `main` comes to next is one of the pipe. -/
def AtPipe (r : NonactiveConn.Run) : Prop :=
  ∃ rest, r.round = some (pipefd :: rest)

instance (r : NonactiveConn.Run) : Decidable (AtPipe pipefd r) :=
  match h : r.round with
  | some (fd :: rest) =>
    decidable_of_iff (fd = pipefd) (by simp [AtPipe, h])
  | some [] => isFalse (by simp [AtPipe, h])
  | none => isFalse (by simp [AtPipe, h])

/-- What the server's step does to the pipe: `epoll_wait` reports it, `recv` reads it. -/
def sigAfter (w : World) : Input → SelfPipe Signal
  | .wait ready => if pipefd ∈ ready then w.sig.report else w.sig
  | .event _ =>
    if AtPipe pipefd w.run then { w.sig.recv signalsSize with inHand := [] } else w.sig
  | .timeout _ => w.sig

/-- `alarm( TIMESLOT )` -/
def alarmAfter (w : World) : Input → Option Int
  | .timeout cur => if w.run.server.any (·.timeout) then some (cur + timeslot) else w.alarm
  | _ => w.alarm

def step (w : World) : Step → World
  | .second => { w with now := w.now + 1 }
  | .expire => { w with alarm := none, sig := w.sig.raise .sigalrm }
  | .raise x => { w with sig := w.sig.raise x }
  | .deliver x => { w with sig := w.sig.deliver x }
  | .server i =>
    { w with
      run := NonactiveConn.step listenfd pipefd w.run i
      sig := sigAfter pipefd w i
      alarm := alarmAfter w i }

/-- The answers of the kernel that the pipe and the clock decide. -/
def Answers (w : World) : Input → Prop
  | .wait ready => pipefd ∈ ready → w.sig.ready = true ∧ w.sig.pipe.data ≠ []
  | .event a =>
    a.cur = w.now ∧
      (AtPipe pipefd w.run → a.epollin = true ∧ a.signals = w.sig.pipe.data.take signalsSize)
  | .timeout cur => cur = w.now

/-- Only signals with a handler are sent: the others are ignored, or end the process. -/
def ok (w : World) : Step → Prop
  | .second => AtRest w
  | .expire => ∃ t, w.alarm = some t ∧ t ≤ w.now
  | .raise x => x ≠ .other
  | .deliver x => x ∈ w.sig.pending
  | .server i => NonactiveConn.Allowed listenfd pipefd w.run i ∧ Answers pipefd w i

def machine : Machine World Step := ⟨step listenfd pipefd, ok listenfd pipefd⟩

end

def start (users : Nat → ClientData) (clock : Int) (cap : Nat) : World where
  run := NonactiveConn.start users clock
  sig := SelfPipe.empty cap
  alarm := some (clock + timeslot)
  now := clock

/-! ## The server's flags -/

section
variable {listenfd pipefd : Nat} {s s' : Server}

/-- The step has no part in signals. -/
def SameFlags (s s' : Server) : Prop :=
  s'.timeout = s.timeout ∧ s'.stopServer = s.stopServer

theorem handleListen_flags {connfd timer : Nat} {cur : Int}
    (h : handleListen s connfd timer cur = some s') :
    SameFlags s s' ∧ s'.opened = Function.update s.opened connfd true := by
  unfold handleListen at h
  obtain ⟨_, _, h⟩ := Option.bind_eq_some_iff.mp h
  obtain ⟨lst, _, h⟩ := Option.bind_eq_some_iff.mp h
  cases h
  exact ⟨⟨rfl, rfl⟩, rfl⟩

theorem closeConn_flags {sockfd : Nat} {timer : Ptr}
    (h : closeConn s sockfd timer = some s') :
    SameFlags s s' ∧ ∀ fd, s'.opened fd = true → s.opened fd = true := by
  have hopened : ∀ fd, (cbFunc s sockfd).opened fd = true → s.opened fd = true := by
    intro fd hfd
    simp only [cbFunc, Function.update_apply] at hfd
    split at hfd
    · cases hfd
    · exact hfd
  unfold closeConn at h
  split at h
  · cases h
    exact ⟨⟨rfl, rfl⟩, hopened⟩
  · obtain ⟨lst, _, h⟩ := Option.bind_eq_some_iff.mp h
    cases h
    exact ⟨⟨rfl, rfl⟩, hopened⟩

theorem handleClient_flags {sockfd : Nat} {o : RecvOutcome} {cur : Int}
    (h : handleClient s sockfd o cur = some s') :
    SameFlags s s' ∧ ∀ fd, s'.opened fd = true → s.opened fd = true := by
  have hsame : SameFlags s s ∧ ∀ fd, s.opened fd = true → s.opened fd = true :=
    ⟨⟨rfl, rfl⟩, fun _ => id⟩
  unfold handleClient at h
  obtain ⟨u, _, h⟩ := Option.bind_eq_some_iff.mp h
  split at h
  · split at h
    · exact closeConn_flags h
    · cases h
      exact hsame
  · exact closeConn_flags h
  · split at h
    · cases h
      exact hsame
    · obtain ⟨m, _, h⟩ := Option.bind_eq_some_iff.mp h
      obtain ⟨lst, _, h⟩ := Option.bind_eq_some_iff.mp h
      cases h
      exact hsame

/-- An event of another descriptor opens the connection that is accepted, at most. -/
theorem handleEvent_flags {sockfd : Nat} {a : Answer}
    (h : handleEvent listenfd pipefd s sockfd a = some s') (hne : sockfd ≠ pipefd) :
    SameFlags s s' ∧
      ∀ fd, s'.opened fd = true → s.opened fd = true ∨ sockfd = listenfd ∧ fd = a.connfd := by
  unfold handleEvent at h
  split at h
  · next hl =>
    obtain ⟨hflags, hopened⟩ := handleListen_flags h
    refine ⟨hflags, fun fd hfd => ?_⟩
    rw [hopened, Function.update_apply] at hfd
    split at hfd
    · next hc => exact .inr ⟨hl, hc⟩
    · exact .inl hfd
  · split at h
    · next hp => exact absurd hp.1 hne
    · split at h
      · obtain ⟨hflags, hopened⟩ := handleClient_flags h
        exact ⟨hflags, fun fd hfd => .inl (hopened fd hfd)⟩
      · cases h
        exact ⟨⟨rfl, rfl⟩, fun _ => .inl⟩

theorem handleEvent_pipe {a : Answer} (hne : listenfd ≠ pipefd) (hin : a.epollin = true) :
    handleEvent listenfd pipefd s pipefd a = some (handleSignals s a.signals) := by
  unfold handleEvent
  rw [if_neg (Ne.symm hne), if_pos ⟨rfl, hin⟩]

/-- A flag that is set stays so, and any signal that is caught sets one. -/
theorem handleSignals_flags (signals : List Signal) (s : Server) :
    (s.timeout = true → (handleSignals s signals).timeout = true) ∧
      (s.stopServer = true → (handleSignals s signals).stopServer = true) ∧
      ((∃ x ∈ signals, x ≠ .other) →
        (handleSignals s signals).timeout = true ∨
          (handleSignals s signals).stopServer = true) := by
  induction signals generalizing s with
  | nil => exact ⟨id, id, fun ⟨x, hx, _⟩ => absurd hx List.not_mem_nil⟩
  | cons sig signals ih =>
    cases sig with
    | sigalrm =>
      obtain ⟨ht, hs, _⟩ := ih { s with timeout := true }
      exact ⟨fun _ => ht rfl, hs, fun _ => .inl (ht rfl)⟩
    | sigterm =>
      obtain ⟨ht, hs, _⟩ := ih { s with stopServer := true }
      exact ⟨ht, fun _ => hs rfl, fun _ => .inr (hs rfl)⟩
    | other =>
      obtain ⟨ht, hs, hx⟩ := ih s
      refine ⟨ht, hs, fun ⟨x, hmem, hne⟩ => hx ⟨x, ?_, hne⟩⟩
      exact (List.mem_cons.mp hmem).resolve_left hne

theorem heardNow_cases (r : NonactiveConn.Run) (sockfd : Nat) (a : Answer) (fd : Nat) :
    heardNow listenfd pipefd r sockfd a fd = a.cur ∨
      heardNow listenfd pipefd r sockfd a fd = r.heard fd := by
  unfold heardNow
  split
  · rw [Function.update_apply]
    split
    · exact .inl rfl
    · exact .inr rfl
  · split
    · rw [Function.update_apply]
      split
      · exact .inl rfl
      · exact .inr rfl
    · exact .inr rfl

end

/-! ## The alarm -/

/-- The next tick will come, or `main` will stop: the alarm is set, it has gone off and been read,
or a signal is on its way. -/
def Ticking (w : World) (s : Server) : Prop :=
  w.alarm ≠ none ∨ s.timeout = true ∨ w.sig.pending ≠ [] ∨ Due w.sig

/-- `b` is when the last tick was, or the start. -/
structure Since (w : World) (b : Int) : Prop where
  past : b ≤ w.now
  near : w.now ≤ b + timeslot
  alarm : ∀ t, w.alarm = some t → w.now ≤ t ∧ t ≤ b + timeslot
  heard : ∀ s fd, w.run.server = some s → s.opened fd = true →
    b < w.run.heard fd + 3 * timeslot

/-- A full pipe is one `main` will read. -/
structure Inv (listenfd pipefd : Nat) (w : World) : Prop where
  server : NonactiveConn.Inv listenfd pipefd w.run
  clock : w.run.clock ≤ w.now
  told : w.sig.told = true ↔ ∃ ready, w.run.round = some ready ∧ pipefd ∈ ready
  caught : ∀ x, x ∈ w.sig.pending ∨ x ∈ w.sig.pipe.data → x ≠ .other
  room : 0 < w.sig.pipe.cap
  full : w.sig.pipe.room = 0 → w.sig.ready = true ∨ w.sig.told = true
  flag : ∀ s, w.run.server = some s → s.timeout = true → w.run.round ≠ none
  ticking : ∀ s, w.run.server = some s → s.stopServer = false → Ticking w s
  since : ∃ b, Since w b

section
variable {listenfd pipefd : Nat} {w : World} {p : SelfPipe Signal} {x : Signal}

/-- Where only the signals on their way change, and not so that there are none. -/
theorem Inv.signals (h : Inv listenfd pipefd w) (htold : p.told = w.sig.told)
    (hcaught : ∀ x, x ∈ p.pending ∨ x ∈ p.pipe.data → x ≠ .other)
    (hcap : p.pipe.cap = w.sig.pipe.cap) (hfull : p.pipe.room = 0 → p.ready = true ∨ p.told = true)
    (hway : w.sig.pending ≠ [] ∨ Due w.sig → p.pending ≠ [] ∨ Due p) :
    Inv listenfd pipefd { w with sig := p } where
  server := h.server
  clock := h.clock
  told := by
    show p.told = true ↔ _
    rw [htold]
    exact h.told
  caught := hcaught
  room := by
    show 0 < p.pipe.cap
    rw [hcap]
    exact h.room
  full := hfull
  flag := h.flag
  ticking := fun s hs hrun => (h.ticking s hs hrun).imp id (Or.imp id hway)
  since := h.since.imp fun _ hb => ⟨hb.past, hb.near, hb.alarm, hb.heard⟩

theorem Inv.raise (h : Inv listenfd pipefd w) (hx : x ≠ .other) :
    Inv listenfd pipefd { w with sig := w.sig.raise x } := by
  refine h.signals SelfPipe.raise_loop.2 ?_ ?_ ?_ fun _ => .inl ?_
  · intro y hy
    rw [SelfPipe.raise_pipe, SelfPipe.mem_raise] at hy
    rcases hy with (hy | rfl) | hy
    · exact h.caught y (.inl hy)
    · exact hx
    · exact h.caught y (.inr hy)
  · rw [SelfPipe.raise_pipe]
  · rw [SelfPipe.raise_pipe, SelfPipe.raise_loop.1, SelfPipe.raise_loop.2]
    exact h.full
  · exact List.ne_nil_of_mem (SelfPipe.mem_raise.mpr (.inr rfl))

/-- A signal that finds the pipe full is lost; but then the pipe is not empty. -/
theorem Inv.deliver (h : Inv listenfd pipefd w) (hx : x ∈ w.sig.pending) :
    Inv listenfd pipefd { w with sig := w.sig.deliver x } := by
  have hloop : (w.sig.deliver x).told = w.sig.told := SelfPipe.deliver_loop.1
  have hpending : ∀ y, y ∈ (w.sig.deliver x).pending → y ≠ .other := by
    intro y hy
    rw [SelfPipe.deliver_pending] at hy
    exact h.caught y (.inl (List.mem_of_mem_erase hy))
  rcases SelfPipe.deliver_cases (p := w.sig) (x := x) with ⟨_, hd, hr⟩ | ⟨hroom, hp, hr⟩
  · refine h.signals hloop ?_ SelfPipe.deliver_cap (fun _ => .inl hr) fun _ => .inr ⟨?_, .inl hr⟩
    · rintro y (hy | hy)
      · exact hpending y hy
      · rw [hd, List.mem_append, List.mem_singleton] at hy
        rcases hy with hy | rfl
        · exact h.caught y (.inr hy)
        · exact h.caught y (.inl hx)
    · rw [hd]
      exact List.append_ne_nil_of_right_ne_nil _ (List.cons_ne_nil _ _)
  · have hedge : (w.sig.deliver x).ready = true ∨ (w.sig.deliver x).told = true := by
      rw [hr, hloop]
      exact h.full hroom
    refine h.signals hloop ?_ SelfPipe.deliver_cap (fun _ => hedge) fun _ => .inr ⟨?_, hedge⟩
    · rintro y (hy | hy)
      · exact hpending y hy
      · rw [hp] at hy
        exact h.caught y (.inr hy)
    · rw [hp]
      refine List.ne_nil_of_length_pos ?_
      have hcap := h.room
      unfold Channel.room at hroom
      omega

theorem Inv.expire (h : Inv listenfd pipefd w) :
    Inv listenfd pipefd { w with alarm := none, sig := w.sig.raise .sigalrm } := by
  have hraise := h.raise (x := .sigalrm) (by decide)
  refine { hraise with
    ticking := fun s hs hrun => .inr (.inr (.inl ?_))
    since := hraise.since.imp fun _ hb => ⟨hb.past, hb.near, fun t ht => (by cases ht), hb.heard⟩ }
  exact List.ne_nil_of_mem (SelfPipe.mem_raise.mpr (.inr rfl))

/-- At rest it is the alarm that will bring the next tick. -/
theorem Inv.alarmed (h : Inv listenfd pipefd w) (hrest : AtRest w) : ∃ t, w.alarm = some t := by
  obtain ⟨s, _, hs, _⟩ := h.server
  rcases h.ticking s hs (hrest.running s hs) with ha | ht | hp | hd
  · exact Option.ne_none_iff_exists'.mp ha
  · exact absurd hrest.waits (h.flag s hs ht)
  · exact absurd hrest.pending hp
  · exact absurd hd hrest.due

theorem Inv.second (h : Inv listenfd pipefd w) (hrest : AtRest w) :
    Inv listenfd pipefd { w with now := w.now + 1 } := by
  obtain ⟨t, ht⟩ := h.alarmed hrest
  have hlate := hrest.alarm t ht
  refine { h with clock := ?_, ticking := h.ticking, since := h.since.imp fun b hb => ?_ }
  · have hclock := h.clock
    show w.run.clock ≤ w.now + 1
    omega
  · have hpast := hb.past
    have hbound := (hb.alarm t ht).2
    refine ⟨?_, ?_, fun t' ht' => ?_, hb.heard⟩
    · show b ≤ w.now + 1
      omega
    · show w.now + 1 ≤ b + timeslot
      omega
    · obtain rfl : t = t' := Option.some.inj (ht.symm.trans ht')
      exact ⟨hlate, hbound⟩

/-! ## The server's steps -/

theorem le_add_timeslot (t : Int) : t ≤ t + timeslot := by
  unfold timeslot
  omega

theorem not_told (h : Inv listenfd pipefd w)
    (hround : ∀ ready, w.run.round = some ready → pipefd ∉ ready) : w.sig.told = false := by
  refine Bool.eq_false_iff.mpr fun htold => ?_
  obtain ⟨ready, hr, hmem⟩ := h.told.mp htold
  exact hround ready hr hmem

theorem Inv.wait (h : Inv listenfd pipefd w) {ready : List Nat}
    (hok : NonactiveConn.Allowed listenfd pipefd w.run (.wait ready))
    (hans : Answers pipefd w (.wait ready)) :
    Inv listenfd pipefd (step listenfd pipefd w (.server (.wait ready))) := by
  have hserver := inv_step w.run (.wait ready) h.server hok
  have hsince : ∀ {sig}, ∃ b, Since ⟨NonactiveConn.step listenfd pipefd w.run (.wait ready), sig,
      w.alarm, w.now⟩ b := h.since.imp fun _ hb => ⟨hb.past, hb.near, hb.alarm, hb.heard⟩
  show Inv listenfd pipefd
    ⟨NonactiveConn.step listenfd pipefd w.run (.wait ready), sigAfter pipefd w (.wait ready),
      w.alarm, w.now⟩
  by_cases hmem : pipefd ∈ ready
  · rw [show sigAfter pipefd w (.wait ready) = w.sig.report from if_pos hmem]
    exact {
      server := hserver
      clock := h.clock
      told := iff_of_true rfl ⟨ready, rfl, hmem⟩
      caught := h.caught
      room := h.room
      full := fun _ => .inr rfl
      flag := fun _ _ _ hnone => by cases hnone
      ticking := fun _ _ _ => .inr (.inr (.inr ⟨(hans hmem).2, .inr rfl⟩))
      since := hsince }
  · have hold : w.sig.told = false := not_told h fun ready' hr => by
      rw [hok.1] at hr
      cases hr
    rw [show sigAfter pipefd w (.wait ready) = w.sig from if_neg hmem]
    exact {
      server := hserver
      clock := h.clock
      told := by
        refine iff_of_false (by rw [hold]; decide) ?_
        rintro ⟨ready', hr, hin⟩
        cases hr
        exact hmem hin
      caught := h.caught
      room := h.room
      full := h.full
      flag := fun _ _ _ hnone => by cases hnone
      ticking := h.ticking
      since := hsince }

/-- Only what is heard now is opened. -/
theorem Since.event {b : Int} {s s' : Server} {round : Option (List Nat)} {clock : Int}
    {heard : Nat → Int} (hb : Since w b) (hs : w.run.server = some s)
    (hopened : ∀ fd, s'.opened fd = true → s.opened fd = true ∨ heard fd = w.now)
    (hheard : ∀ fd, heard fd = w.now ∨ heard fd = w.run.heard fd) :
    Since ⟨⟨some s', round, clock, heard⟩, p, w.alarm, w.now⟩ b where
  past := hb.past
  near := hb.near
  alarm := hb.alarm
  heard := by
    intro s₀ fd hs₀ hfd
    cases hs₀
    have hpast := hb.past
    have hnow : heard fd = w.now → b < heard fd + 3 * timeslot := by
      intro he
      rw [he]
      unfold timeslot
      omega
    rcases hopened fd hfd with ho | he
    · rcases hheard fd with he | he
      · exact hnow he
      · show b < heard fd + 3 * timeslot
        rw [he]
        exact hb.heard s fd hs ho
    · exact hnow he

/-- `main` reads the pipe: a flag is set, for there are signals in it. -/
theorem Inv.recv (h : Inv listenfd pipefd w) (hne : listenfd ≠ pipefd) {s s' : Server} {a : Answer}
    {rest : List Nat} (hs : w.run.server = some s)
    (hserver : NonactiveConn.Inv listenfd pipefd
      ⟨some s', some rest, a.cur, heardNow listenfd pipefd w.run pipefd a⟩)
    (he : handleEvent listenfd pipefd s pipefd a = some s') (hcur : a.cur = w.now)
    (hin : a.epollin = true) (hsignals : a.signals = w.sig.pipe.data.take signalsSize)
    (hrest : pipefd ∉ rest) :
    Inv listenfd pipefd ⟨⟨some s', some rest, a.cur, heardNow listenfd pipefd w.run pipefd a⟩,
      { w.sig.recv signalsSize with inHand := [] }, w.alarm, w.now⟩ := by
  obtain rfl : handleSignals s a.signals = s' :=
    Option.some.inj ((handleEvent_pipe hne hin).symm.trans he)
  obtain ⟨htimeout, hstop, hset⟩ := handleSignals_flags a.signals s
  refine {
    server := hserver
    clock := Int.le_of_eq hcur
    told := iff_of_false Bool.false_ne_true ?_
    caught := fun x hx => h.caught x (hx.imp id List.mem_of_mem_drop)
    room := h.room
    full := ?_
    flag := fun _ _ _ hnone => by cases hnone
    ticking := ?_
    since := h.since.imp fun b hb => hb.event hs (fun fd hfd => .inl ?_) fun fd => ?_ }
  · rintro ⟨ready, hready, hmem⟩
    cases hready
    exact hrest hmem
  · intro hfull
    have hroom := h.room
    have hfits := w.sig.pipe.fits
    simp only [Channel.room, SelfPipe.recv, Channel.pull_data, Channel.pull_cap,
      List.length_drop, signalsSize] at hfull
    omega
  · intro s₀ hs₀ hrun
    cases hs₀
    have hwas : s.stopServer = false := by
      refine Bool.eq_false_iff.mpr fun hs => ?_
      exact Bool.false_ne_true (hrun.symm.trans (hstop hs))
    rcases h.ticking s hs hwas with ha | ht | hp | hd
    · exact .inl ha
    · exact .inr (.inl (htimeout ht))
    · exact .inr (.inr (.inl hp))
    · refine .inr (.inl ((hset ?_).resolve_right ?_))
      · obtain ⟨x, hx⟩ := List.exists_mem_of_ne_nil (w.sig.pipe.data.take signalsSize) (by
          simpa [signalsSize] using hd.1)
        exact ⟨x, hsignals ▸ hx, h.caught x (.inr (List.mem_of_mem_take hx))⟩
      · rw [hrun]
        decide
  · rw [(handleSignals_opened a.signals s).2.2] at hfd
    exact hfd
  · rw [← hcur]
    exact heardNow_cases w.run pipefd a fd

theorem Inv.client (h : Inv listenfd pipefd w) {s s' : Server} {a : Answer} {sockfd : Nat}
    {rest : List Nat} (hr : w.run.round = some (sockfd :: rest)) (hs : w.run.server = some s)
    (hserver : NonactiveConn.Inv listenfd pipefd
      ⟨some s', some rest, a.cur, heardNow listenfd pipefd w.run sockfd a⟩)
    (he : handleEvent listenfd pipefd s sockfd a = some s') (hcur : a.cur = w.now)
    (hne : sockfd ≠ pipefd) :
    Inv listenfd pipefd ⟨⟨some s', some rest, a.cur, heardNow listenfd pipefd w.run sockfd a⟩,
      w.sig, w.alarm, w.now⟩ := by
  obtain ⟨⟨htimeout, hstop⟩, hopened⟩ := handleEvent_flags he hne
  refine {
    server := hserver
    clock := Int.le_of_eq hcur
    told := h.told.trans ?_
    caught := h.caught
    room := h.room
    full := h.full
    flag := fun _ _ _ hnone => by cases hnone
    ticking := ?_
    since := h.since.imp fun b hb => hb.event hs (fun fd hfd => ?_) fun fd => ?_ }
  · rw [hr]
    constructor
    · rintro ⟨ready, hready, hmem⟩
      cases hready
      exact ⟨rest, rfl, (List.mem_cons.mp hmem).resolve_left (Ne.symm hne)⟩
    · rintro ⟨ready, hready, hmem⟩
      cases hready
      exact ⟨sockfd :: rest, rfl, List.mem_cons_of_mem sockfd hmem⟩
  · intro s₀ hs₀ hrun
    cases hs₀
    exact (h.ticking s hs (hstop.symm.trans hrun)).imp id (Or.imp htimeout.trans id)
  · refine (hopened fd hfd).imp id ?_
    rintro ⟨rfl, rfl⟩
    rw [← hcur]
    unfold heardNow
    rw [if_pos rfl, Function.update_self]
  · rw [← hcur]
    exact heardNow_cases w.run sockfd a fd

theorem Inv.event (h : Inv listenfd pipefd w) (hne : listenfd ≠ pipefd) {a : Answer}
    (hok : NonactiveConn.Allowed listenfd pipefd w.run (.event a))
    (hans : Answers pipefd w (.event a)) :
    Inv listenfd pipefd (step listenfd pipefd w (.server (.event a))) := by
  have hserver := inv_step w.run (.event a) h.server hok
  obtain ⟨sockfd, rest, hr, -⟩ := hok
  obtain ⟨s, _, hs, _, hround⟩ := h.server
  have hrun : NonactiveConn.step listenfd pipefd w.run (.event a) =
      ⟨handleEvent listenfd pipefd s sockfd a, some rest, a.cur,
        heardNow listenfd pipefd w.run sockfd a⟩ := by
    simp only [NonactiveConn.step, hr, hs, Option.bind_some]
  have hserver' : NonactiveConn.Inv listenfd pipefd
      (NonactiveConn.step listenfd pipefd w.run (.event a)) := hserver
  obtain ⟨s', _, he, _⟩ := hserver
  replace he : handleEvent listenfd pipefd s sockfd a = some s' := by
    have hstep : (NonactiveConn.step listenfd pipefd w.run (.event a)).server = some s' := he
    rw [hrun] at hstep
    exact hstep
  show Inv listenfd pipefd
    ⟨NonactiveConn.step listenfd pipefd w.run (.event a), sigAfter pipefd w (.event a),
      w.alarm, w.now⟩
  rw [hrun, he] at hserver' ⊢
  by_cases hpipe : sockfd = pipefd
  · subst hpipe
    have hat : AtPipe sockfd w.run := ⟨rest, hr⟩
    rw [show sigAfter sockfd w (.event a) = { w.sig.recv signalsSize with inHand := [] } from
      if_pos hat]
    have hnot := (List.nodup_cons.mp (hround _ hr).1).1
    exact h.recv hne hs hserver' he hans.1 (hans.2 hat).1 (hans.2 hat).2 hnot
  · have hat : ¬AtPipe pipefd w.run := by
      rintro ⟨rest', hr'⟩
      rw [hr] at hr'
      cases hr'
      exact hpipe rfl
    rw [show sigAfter pipefd w (.event a) = w.sig from if_neg hat]
    exact h.client hr hs hserver' he hans.1 hpipe

theorem Inv.timeout (h : Inv listenfd pipefd w) {cur : Int}
    (hok : NonactiveConn.Allowed listenfd pipefd w.run (.timeout cur))
    (hans : Answers pipefd w (.timeout cur)) :
    Inv listenfd pipefd (step listenfd pipefd w (.server (.timeout cur))) := by
  have hserver := inv_step w.run (.timeout cur) h.server hok
  obtain rfl : cur = w.now := hans
  obtain ⟨s, l, hs, hidle, _⟩ := h.server
  have htold : w.sig.told = false := not_told h fun ready hr => by
    rw [hok.1] at hr
    cases hr
    exact List.not_mem_nil
  have hfold : w.sig.told = true ↔
      ∃ ready, (none : Option (List Nat)) = some ready ∧ pipefd ∈ ready := by
    refine iff_of_false (by rw [htold]; decide) ?_
    rintro ⟨ready, hr, _⟩
    cases hr
  show Inv listenfd pipefd
    ⟨NonactiveConn.step listenfd pipefd w.run (.timeout w.now), w.sig,
      alarmAfter w (.timeout w.now), w.now⟩
  by_cases ht : s.timeout = true
  · obtain ⟨s', l', e, _, ho⟩ := timerHandler_idle hidle h.clock
    have hstep : (NonactiveConn.step listenfd pipefd w.run (.timeout w.now)).server =
        some { s' with timeout := false } := by
      simp only [NonactiveConn.step, endRound, hs, Option.bind_some, ht, if_true, e,
        Option.map_some]
    have halarm : alarmAfter w (.timeout w.now) = some (w.now + timeslot) := by
      simp only [alarmAfter, hs, Option.any_some, ht, if_true]
    rw [halarm]
    refine {
      server := hserver
      clock := Int.le_refl _
      told := hfold
      caught := h.caught
      room := h.room
      full := h.full
      flag := ?_
      ticking := fun _ _ _ => .inl (by simp)
      since := ⟨w.now, Int.le_refl _, le_add_timeslot _, ?_, ?_⟩ }
    · intro s₀ hs₀ htime
      rw [hstep] at hs₀
      cases hs₀
      cases htime
    · intro t he
      cases he
      exact ⟨le_add_timeslot _, Int.le_refl _⟩
    · intro s₀ fd hs₀ hfd
      rw [hstep] at hs₀
      cases hs₀
      have hlate := ((ho fd).mp hfd).2
      show w.now < w.run.heard fd + 3 * timeslot
      omega
  · have hstep : (NonactiveConn.step listenfd pipefd w.run (.timeout w.now)).server = some s := by
      simp only [NonactiveConn.step, hs, Option.bind_some]
      exact if_neg ht
    have halarm : alarmAfter w (.timeout w.now) = w.alarm := by
      refine if_neg ?_
      rw [hs]
      exact ht
    rw [halarm]
    refine {
      server := hserver
      clock := Int.le_refl _
      told := hfold
      caught := h.caught
      room := h.room
      full := h.full
      flag := ?_
      ticking := ?_
      since := h.since.imp fun _ hb => ⟨hb.past, hb.near, hb.alarm, ?_⟩ }
    · intro s₀ hs₀ htime
      rw [hstep] at hs₀
      cases hs₀
      exact absurd htime ht
    · intro s₀ hs₀ hrun
      rw [hstep] at hs₀
      cases hs₀
      exact h.ticking s hs hrun
    · intro s₀ fd hs₀ hfd
      rw [hstep] at hs₀
      cases hs₀
      exact hb.heard s fd hs hfd

/-! ## Runs -/

theorem Inv.step (hne : listenfd ≠ pipefd) {i : Step} (h : Inv listenfd pipefd w)
    (hok : (machine listenfd pipefd).ok w i) :
    Inv listenfd pipefd ((machine listenfd pipefd).step w i) := by
  cases i with
  | second => exact h.second hok
  | expire => exact h.expire
  | raise x => exact h.raise hok
  | deliver x => exact h.deliver hok
  | server i =>
    cases i with
    | wait ready => exact h.wait hok.1 hok.2
    | event a => exact h.event hne hok.1 hok.2
    | timeout cur => exact h.timeout hok.1 hok.2

theorem start_inv (listenfd pipefd : Nat) (users : Nat → ClientData) (clock : Int) {cap : Nat}
    (hcap : 0 < cap) : Inv listenfd pipefd (start users clock cap) where
  server := ⟨_, [], rfl, ⟨LstTimer.repr_init, .nil, by simp, by simp⟩,
    by simp [start, NonactiveConn.start]⟩
  clock := Int.le_refl _
  told := by simp [start, NonactiveConn.start, SelfPipe.empty]
  caught := by simp [start, SelfPipe.empty]
  room := hcap
  full := by
    intro hfull
    simp only [start, SelfPipe.empty, Channel.room, Channel.empty_cap, Channel.empty_data,
      List.length_nil] at hfull
    omega
  flag := by
    intro s hs ht
    cases hs
    cases ht
  ticking := fun _ _ _ => .inl (by simp [start])
  since := by
    refine ⟨clock, Int.le_refl _, le_add_timeslot clock, ?_, ?_⟩
    · intro t ht
      cases ht
      exact ⟨le_add_timeslot clock, Int.le_refl _⟩
    · intro s fd hs hfd
      cases hs
      cases hfd

/-- The next tick is on its way, and no client that is still connected has been silent for
`4 * TIMESLOT`. -/
def Prompt (w : World) : Prop :=
  ∀ s, w.run.server = some s → (s.stopServer = false → Ticking w s) ∧
    ∀ fd, s.opened fd = true → w.now < w.run.heard fd + 4 * timeslot

theorem Inv.prompt (h : Inv listenfd pipefd w) : Prompt w := by
  intro s hs
  refine ⟨h.ticking s hs, fun fd hfd => ?_⟩
  obtain ⟨b, hb⟩ := h.since
  have hnear := hb.near
  have hheard := hb.heard s fd hs hfd
  unfold timeslot at *
  omega

/-- Whatever signals are sent to the server, and however small the pipe they go through: the ticks
go on until `main` stops, and a connection is closed before it has been silent for
`4 * TIMESLOT`. -/
theorem never_silent_long (listenfd pipefd : Nat) (hne : listenfd ≠ pipefd)
    (users : Nat → ClientData) (clock : Int) (cap : Nat) (hcap : 0 < cap) (is : List Step)
    (hv : (machine listenfd pipefd).Valid (start users clock cap) is) :
    (machine listenfd pipefd).Always Prompt (start users clock cap) is :=
  (Machine.always_inv (M := machine listenfd pipefd) (I := Inv listenfd pipefd)
    (fun _ _ h hok => h.step hne hok) (start_inv listenfd pipefd users clock hcap) hv).imp
    fun _ h => h.prompt

/-- A SIGALRM from elsewhere has the server tick early. -/
theorem never_silent_long_early :
    (machine 3 4).Always Prompt (start (fun _ => ⟨0, none⟩) 0 5)
      [.second, .raise .sigalrm, .deliver .sigalrm, .server (.wait [4]),
        .server (.event ⟨true, 0, 0, [.sigalrm], .data [], 1⟩), .server (.timeout 1)] := by
  refine never_silent_long 3 4 (by decide) _ 0 5 (by decide) _ ⟨⟨rfl, ?_, rfl, ?_, ?_⟩, ?_⟩
  · intro s hs
    cases hs
    rfl
  · exact fun hdue => hdue.1 rfl
  · intro t ht
    cases ht
    decide
  · refine ⟨?_, ?_, ⟨⟨rfl, ?_, by decide, ?_⟩, fun _ => ⟨rfl, ?_⟩⟩, ⟨⟨4, [], rfl, ?_, ?_⟩, rfl, ?_⟩,
      ⟨⟨rfl, ?_⟩, rfl⟩, trivial⟩
    · exact Signal.noConfusion
    · exact List.mem_singleton.mpr rfl
    · intro s hs
      cases hs
      rfl
    · intro fd hfd
      exact .inr (.inl (List.mem_singleton.mp hfd))
    · exact List.cons_ne_nil _ _
    · decide
    · exact fun h => absurd h (by decide)
    · exact fun _ => ⟨rfl, rfl⟩
    · decide

end

end IdleAlarm
end Unpvol1
