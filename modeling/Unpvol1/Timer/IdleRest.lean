import Unpvol1.Lib.Progress
import Unpvol1.Timer.IdleAlarm

/-!
# Timer.IdleRest

In `Timer.IdleAlarm` a second passes only when `main` is back in `epoll_wait` and has read its
signals. That there are such moments is a theorem: left alone, the server soon is at one.

* `settling` — the steps of the alarm, of `sig_handler` and of `main`, while nobody does anything.
* `World.toGo` — how many of them are left at most.
* `comes_to_quiet` — every schedule of them ends, with `main` at rest or stopped.
-/

namespace Unpvol1
namespace IdleAlarm

open DList NonactiveConn

section
variable (listenfd pipefd : Nat)

/-- Nobody sends a signal, no client does anything, and no time passes. -/
def settling : Machine World Step where
  step := step listenfd pipefd
  ok w i := ok listenfd pipefd w i ∧
    (match i with
    | .second => False
    | .raise _ => False
    | .server (.wait ready) => ready = [pipefd]
    | _ => True)

end

def roundToGo : Option (List Nat) → Nat
  | some ready => 1 + ready.length
  | none => 0

def alarmToGo (w : World) : Nat :=
  match w.alarm with
  | some t => if t ≤ w.now then 5 else 0
  | none => 0

/-- An alarm makes a signal, a signal an edge, and an edge a round with one event. -/
def World.toGo (w : World) : Nat :=
  alarmToGo w + 4 * w.sig.pending.length + 3 * w.sig.ready.toNat + roundToGo w.run.round

def Stopped (w : World) : Prop :=
  w.run.round = none ∧ ∃ s, w.run.server = some s ∧ s.stopServer = true

/-- `main` will not call `accept` in this round. -/
def NoAccept (listenfd : Nat) (w : World) : Prop :=
  ∀ ready, w.run.round = some ready → listenfd ∉ ready

section
variable {listenfd pipefd : Nat} {w : World} {p : SelfPipe Signal} {i : Step}

theorem NoAccept.step (hne : listenfd ≠ pipefd) (h : NoAccept listenfd w)
    (hok : (settling listenfd pipefd).ok w i) :
    NoAccept listenfd ((settling listenfd pipefd).step w i) := by
  cases i with
  | second => exact hok.2.elim
  | expire => exact h
  | raise x => exact hok.2.elim
  | deliver x => exact h
  | server i =>
    cases i with
    | wait ready =>
      obtain rfl : ready = [pipefd] := hok.2
      intro ready' hr hmem
      cases hr
      exact hne (List.mem_singleton.mp hmem)
    | event a =>
      obtain ⟨sockfd, rest, hr, -⟩ := hok.1.1
      intro ready' hr' hmem
      have hround : (NonactiveConn.step listenfd pipefd w.run (.event a)).round = some rest := by
        simp only [NonactiveConn.step, hr]
      obtain rfl : rest = ready' := Option.some.inj (hround.symm.trans hr')
      exact h _ hr (List.mem_cons_of_mem sockfd hmem)
    | timeout cur =>
      intro ready' hr
      cases hr

theorem toGo_expire {t : Int} (ht : w.alarm = some t) (hle : t ≤ w.now) :
    World.toGo { w with alarm := none, sig := w.sig.raise .sigalrm } < w.toGo := by
  have hlen := SelfPipe.raise_length (p := w.sig) (x := .sigalrm)
  have hdue : alarmToGo w = 5 := by
    unfold alarmToGo
    rw [ht]
    exact if_pos hle
  show 0 + 4 * (w.sig.raise .sigalrm).pending.length +
    3 * (w.sig.raise .sigalrm).ready.toNat + roundToGo w.run.round < _
  rw [SelfPipe.raise_loop.1]
  unfold World.toGo
  omega

theorem toGo_deliver {x : Signal} (hx : x ∈ w.sig.pending) :
    World.toGo { w with sig := w.sig.deliver x } < w.toGo := by
  have hlen := List.length_erase_of_mem hx
  have hpos := List.length_pos_of_mem hx
  have hready : (w.sig.deliver x).ready.toNat ≤ 1 := Bool.toNat_le _
  show alarmToGo w + 4 * (w.sig.deliver x).pending.length +
    3 * (w.sig.deliver x).ready.toNat + roundToGo w.run.round < _
  rw [SelfPipe.deliver_pending]
  unfold World.toGo
  omega

/-- A step of `main` leaves what is pending. -/
theorem toGo_server {r : NonactiveConn.Run} {p : SelfPipe Signal} {alarm : Option Int}
    (hpending : p.pending = w.sig.pending)
    (halarm : alarmToGo ⟨r, p, alarm, w.now⟩ ≤ alarmToGo w)
    (hlt : 3 * p.ready.toNat + roundToGo r.round <
      3 * w.sig.ready.toNat + roundToGo w.run.round) :
    World.toGo ⟨r, p, alarm, w.now⟩ < w.toGo := by
  show alarmToGo _ + 4 * p.pending.length + 3 * p.ready.toNat + roundToGo r.round < _
  rw [hpending]
  unfold World.toGo
  omega

theorem sigAfter_event (pipefd : Nat) (w : World) (a : Answer) :
    (sigAfter pipefd w (.event a)).pending = w.sig.pending ∧
      (sigAfter pipefd w (.event a)).ready = w.sig.ready := by
  by_cases hat : AtPipe pipefd w.run
  · rw [show sigAfter pipefd w (.event a) = { w.sig.recv signalsSize with inHand := [] } from
      if_pos hat]
    exact ⟨rfl, rfl⟩
  · rw [show sigAfter pipefd w (.event a) = w.sig from if_neg hat]
    exact ⟨rfl, rfl⟩

/-- The alarm that is set is not due yet. -/
theorem alarmAfter_timeout {r : NonactiveConn.Run} (w : World) :
    alarmToGo ⟨r, p, alarmAfter w (.timeout w.now), w.now⟩ ≤ alarmToGo w := by
  by_cases ht : w.run.server.any (·.timeout) = true
  · have halarm : alarmAfter w (.timeout w.now) = some (w.now + timeslot) := if_pos ht
    rw [halarm]
    show (if w.now + timeslot ≤ w.now then 5 else 0) ≤ alarmToGo w
    rw [if_neg (by unfold timeslot; omega)]
    exact Nat.zero_le _
  · have halarm : alarmAfter w (.timeout w.now) = w.alarm := if_neg ht
    rw [halarm]
    exact Nat.le_refl _

theorem toGo_step (hok : (settling listenfd pipefd).ok w i) :
    ((settling listenfd pipefd).step w i).toGo < w.toGo := by
  cases i with
  | second => exact hok.2.elim
  | expire =>
    obtain ⟨t, ht, hle⟩ := hok.1
    exact toGo_expire ht hle
  | raise x => exact hok.2.elim
  | deliver x => exact toGo_deliver hok.1
  | server i =>
    cases i with
    | wait ready =>
      obtain rfl : ready = [pipefd] := hok.2
      have hwaits : w.run.round = none := hok.1.1.1
      have hready : w.sig.ready = true := (hok.1.2 List.mem_cons_self).1
      have hsig : sigAfter pipefd w (.wait [pipefd]) = w.sig.report := if_pos List.mem_cons_self
      show World.toGo ⟨_, sigAfter pipefd w (.wait [pipefd]), w.alarm, w.now⟩ < _
      rw [hsig]
      refine toGo_server rfl (Nat.le_refl _) ?_
      rw [hready, hwaits]
      show 3 * 0 + (1 + 1) < 3 * 1 + 0
      decide
    | event a =>
      obtain ⟨sockfd, rest, hr, -⟩ := hok.1.1
      have hround : (NonactiveConn.step listenfd pipefd w.run (.event a)).round = some rest := by
        simp only [NonactiveConn.step, hr]
      have hsig := sigAfter_event pipefd w a
      refine toGo_server hsig.1 (Nat.le_refl _) ?_
      rw [hsig.2, hround, hr]
      exact Nat.add_lt_add_left (Nat.add_lt_add_left (Nat.lt_succ_self _) 1) _
    | timeout cur =>
      obtain rfl : cur = w.now := hok.1.2
      have hround : w.run.round = some [] := hok.1.1.1
      refine toGo_server rfl (alarmAfter_timeout w) ?_
      rw [hround]
      exact Nat.lt_succ_self _

/-- Where `main` does nothing more, it is in `epoll_wait`, or behind its loop. -/
theorem Inv.rests (h : Inv listenfd pipefd w) (hno : NoAccept listenfd w)
    (hstuck : (settling listenfd pipefd).Stuck w) : Stopped w ∨ AtRest w := by
  have hwaits : w.run.round = none := by
    cases hr : w.run.round with
    | none => rfl
    | some ready =>
      cases ready with
      | nil => exact absurd ⟨⟨⟨hr, h.clock⟩, rfl⟩, trivial⟩ (hstuck (.server (.timeout w.now)))
      | cons sockfd rest =>
        have hne : sockfd ≠ listenfd := by
          rintro rfl
          exact hno _ hr List.mem_cons_self
        refine absurd ⟨⟨⟨sockfd, rest, hr, h.clock, fun hl => absurd hl hne⟩, rfl, ?_⟩, trivial⟩
          (hstuck (.server (.event
            ⟨true, 0, 0, w.sig.pipe.data.take signalsSize, .data [], w.now⟩)))
        exact fun _ => ⟨rfl, rfl⟩
  obtain ⟨s, _, hs, _⟩ := h.server
  by_cases hstop : s.stopServer = true
  · exact .inl ⟨hwaits, s, hs, hstop⟩
  have hrun : ∀ s', w.run.server = some s' → s'.stopServer = false := by
    intro s' hs'
    obtain rfl : s = s' := Option.some.inj (hs.symm.trans hs')
    exact Bool.of_not_eq_true hstop
  refine .inr ⟨hwaits, hrun, ?_, ?_, ?_⟩
  · refine List.eq_nil_iff_forall_not_mem.mpr fun x hx => ?_
    exact hstuck (.deliver x) ⟨hx, trivial⟩
  · rintro ⟨hdata, hready | htold⟩
    · have hnodup : [pipefd].Nodup := List.nodup_singleton _
      refine hstuck (.server (.wait [pipefd])) ⟨⟨⟨hwaits, hrun, hnodup, ?_⟩, ?_⟩, rfl⟩
      · exact fun fd hfd => .inr (.inl (List.mem_singleton.mp hfd))
      · exact fun _ => ⟨hready, hdata⟩
    · obtain ⟨ready, hr, _⟩ := h.told.mp htold
      rw [hwaits] at hr
      cases hr
  · intro t ht
    by_contra hdue
    exact hstuck .expire ⟨⟨t, ht, Int.not_lt.mp hdue⟩, trivial⟩

/-- From any state of any run in which `main` is not about to accept a connection, and as long as
nobody does anything, every schedule has it back in `epoll_wait` with all signals read, or stopped.
-/
theorem comes_to_quiet (listenfd pipefd : Nat) (hne : listenfd ≠ pipefd)
    (users : Nat → ClientData) (clock : Int) (cap : Nat) (hcap : 0 < cap) (is : List Step)
    (hv : (machine listenfd pipefd).Valid (start users clock cap) is)
    (hno : NoAccept listenfd ((machine listenfd pipefd).run (start users clock cap) is)) :
    let w := (machine listenfd pipefd).run (start users clock cap) is
    (settling listenfd pipefd).Ends w.toGo (fun w => Stopped w ∨ AtRest w) w := by
  have hinv := Machine.run_inv (M := machine listenfd pipefd) (I := Inv listenfd pipefd)
    (fun _ _ h hok => h.step hne hok) (start_inv listenfd pipefd users clock hcap) hv
  exact Machine.ends_of_measure (M := settling listenfd pipefd)
    (I := fun w => Inv listenfd pipefd w ∧ NoAccept listenfd w) World.toGo
    (fun _ _ h hok => ⟨h.1.step hne hok.1, h.2.step hne hok⟩) (fun _ _ _ hok => toGo_step hok)
    (fun _ h hstuck => h.1.rests h.2 hstuck) ⟨hinv, hno⟩

/-- A SIGTERM is in the pipe. -/
theorem comes_to_quiet_sigterm :
    let w := (machine 3 4).run (start (fun _ => ⟨0, none⟩) 0 5)
      [.raise .sigterm, .deliver .sigterm]
    (settling 3 4).Ends w.toGo (fun w => Stopped w ∨ AtRest w) w := by
  refine comes_to_quiet 3 4 (by decide) _ 0 5 (by decide) _ ⟨?_, ?_, trivial⟩ ?_
  · exact Signal.noConfusion
  · exact List.mem_singleton.mpr rfl
  · intro ready hr
    cases hr

end

end IdleAlarm
end Unpvol1
