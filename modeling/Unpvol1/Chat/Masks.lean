import Unpvol1.Chat.Broadcast

/-!
# Chat.Masks

What the group chat server asks `poll` for. The mask of a client is in its slot of `pfd`, the
message that is to be sent to it in its entry of `clients`.

* `Mask`        — a client is read, or it has a message and is written to.
* `turn_masks`  — each turn of the scan keeps this, for all clients.
* `Flushes`     — a client that asked to be written to and is found writable is sent its message,
  and is read again.
* `masks_exact` — both, in every run.
-/

namespace Unpvol1
namespace ServerPoll

/-- One of POLLIN and POLLOUT is asked for, and POLLOUT only where there is a message. -/
structure Mask (clients : Nat → ClientInfo) (p : PollFd) : Prop where
  one : p.events.pollin = !p.events.pollout
  message : p.events.pollout = true → (clients p.fd).wb ≠ none

def Masks (s : Server) : Prop := ∀ j < s.currentClientNum, Mask s.clients (s.pfd (j + 1))

/-- The open descriptors are those in the slots, each once, and their masks are as they should
be. -/
structure Masked (s : State) : Prop where
  slots : (fds s.server).Perm s.opened
  nodup : s.opened.Nodup
  masks : Masks s.server

/-- A client that asked to be written to and is found writable: the branch does not go on without
sending, and behind it the client is asked for its own messages again. -/
def Flushes (s : State) (st : Step) : Prop :=
  ∀ o i, st = .iterate o → s.cursor = some (i + 1) → Writable s.server (i + 1) →
    (s.server.pfd (i + 1)).events.pollout = true →
      (∃ bytes, acts s st = [.send (s.server.pfd (i + 1)).fd bytes]) ∧
        ((machine.step s st).server.pfd (i + 1)).events.pollin = true ∧
        ((machine.step s st).server.pfd (i + 1)).events.pollout = false

section
variable {lfd cap : Nat} {s s' : Server} {opened : List Nat}

/-! ## One turn -/

/-- A client's own slot and message decide. -/
theorem Mask.congr {clients clients' : Nat → ClientInfo} {p p' : PollFd} (h : Mask clients p)
    (hfd : p'.fd = p.fd) (he : p'.events = p.events)
    (hwb : (clients' p.fd).wb = (clients p.fd).wb) : Mask clients' p' := by
  constructor
  · rw [he]
    exact h.one
  · rw [he, hfd, hwb]
    exact h.message

theorem masks_polled (h : Masks s) (result : Option (Nat → Events)) :
    Masks (polled s result) := by
  cases result with
  | none => exact h
  | some r =>
    intro j hj
    have hj' : j + 1 ≤ s.currentClientNum := hj
    refine (h j hj).congr ?_ ?_ rfl
    · simp only [polled, hj', if_true]
    · simp only [polled, hj', if_true]

/-- The client that joins is read, whatever message its descriptor still has from an older one. -/
theorem masks_addClient (h : Masks s) (connfd : Nat) : Masks (addClient s connfd) := by
  intro j hj
  rcases Nat.lt_succ_iff_lt_or_eq.mp hj with hlt | rfl
  · have hne : j + 1 ≠ s.currentClientNum + 1 := by omega
    simp only [addClient, Function.update_of_ne hne]
    exact h j hlt
  · simp only [addClient, Function.update_self]
    exact ⟨rfl, fun e => by cases e⟩

/-- The entry that is written is that of the client that has left. -/
theorem masks_removeClient (hh : Holds lfd cap s opened) (h : Masks s) {i : Nat}
    (hi : i < s.currentClientNum) : Masks (removeClient s (i + 1)) := by
  refine (forall_removeClient (Mask (removeClient s (i + 1)).clients) hi).mpr fun j hj hne => ?_
  refine (h j hj).congr rfl rfl ?_
  simp only [removeClient, Function.update_of_ne (holds_inj hh hj hi hne)]

/-- All others are asked to be written to, and have the message. -/
theorem masks_receive (hh : Holds lfd cap s opened) (h : Masks s) {i : Nat}
    (hi : i < s.currentClientNum) (bytes : List UInt8) :
    Masks (receive s (s.pfd (i + 1)).fd bytes) := by
  intro j hj
  rw [(receive_forwarded s (s.pfd (i + 1)).fd bytes).currentClientNum] at hj
  by_cases hji : j = i
  · subst hji
    obtain ⟨hown, hwb⟩ := receive_own (s := s) bytes (rfl : (s.pfd (j + 1)).fd = _)
    exact (h j hj).congr (by rw [hown]) (by rw [hown]) hwb
  · obtain ⟨_, hp, hw⟩ := receive_other bytes hh hi rfl hj hji
    rw [hp]
    refine ⟨rfl, fun _ hnone => ?_⟩
    exact absurd (hw.symm.trans hnone) (Option.some_ne_none _)

theorem flush_mask (s : Server) (i : Nat) :
    ((flush s i).pfd i).events.pollin = true ∧ ((flush s i).pfd i).events.pollout = false := by
  simp only [flush, Function.update_self, and_self]

theorem masks_flush (hh : Holds lfd cap s opened) (h : Masks s) {i : Nat}
    (hi : i < s.currentClientNum) : Masks (flush s (i + 1)) := by
  intro j hj
  by_cases hji : j = i
  · subst hji
    obtain ⟨hin, hout⟩ := flush_mask s (j + 1)
    refine ⟨by rw [hin, hout]; rfl, fun hasks => ?_⟩
    rw [hout] at hasks
    cases hasks
  · have hslot : j + 1 ≠ i + 1 := by omega
    have hp : (flush s (i + 1)).pfd (j + 1) = s.pfd (j + 1) := by
      simp only [flush, Function.update_of_ne hslot]
    rw [hp]
    refine (h j hj).congr rfl rfl ?_
    simp only [flush, Function.update_of_ne (holds_inj hh hj hi hji)]

theorem turn_masks (hh : Holds lfd cap s opened) (h : Masks s) {c : Nat}
    (hc : c ≤ s.currentClientNum) (o : Outcome) : Masks (iterate s c o).1 := by
  cases c with
  | zero =>
    have ht := iterate_listen (hh.first.trans hh.listenfd.symm) hh.quiet.1 hh.quiet.2 o
    generalize iterate s 0 o = r at ht
    cases ht with
    | idle => exact h
    | refused connfd ha => exact h
    | joined connfd ha hlt => exact masks_addClient h connfd
  | succ i =>
    have ht := iterate_client (holds_client hh hc).2 o
    generalize iterate s (i + 1) o = r at ht
    cases ht with
    | idle => exact h
    | left => exact masks_removeClient hh h hc
    | @received bytes => exact masks_receive hh h hc bytes
    | flushed => exact masks_flush hh h hc

/-- Where there is a message, a turn that finds the client writable sends it. -/
theorem turn_flushes {i : Nat} (hfd : (s.pfd i).fd ≠ s.listenfd)
    (hwb : (s.clients (s.pfd i).fd).wb ≠ none) (hw : Writable s i) (o : Outcome) :
    ∃ bytes, iterate s i o = (flush s i, i + 1, [.send (s.pfd i).fd bytes]) := by
  have ht := iterate_client hfd o
  generalize iterate s i o = r at ht
  cases ht with
  | idle hl hb hidle => exact absurd (hidle hw) hwb
  | left hl hb hnot => exact absurd hw hnot
  | received hl hb hnot => exact absurd hw hnot
  | flushed => exact ⟨_, rfl⟩

end

/-! ## Runs -/

section
variable {lfd cap : Nat}

theorem masks_step (s : State) (st : Step) (h : Inv lfd cap s ∧ Masks s.server)
    (hok : machine.ok s st) :
    Inv lfd cap (machine.step s st) ∧ Masks (machine.step s st).server := by
  refine ⟨inv_step s st h.1 hok, ?_⟩
  cases st with
  | poll result => exact masks_polled h.2 result
  | iterate o =>
    obtain ⟨c, hc⟩ := Option.ne_none_iff_exists'.mp hok.1
    have hserver : (machine.step s (.iterate o)).server = (iterate s.server c o).1 := by
      show (step s (.iterate o)).server = _
      simp only [step, hc]
    rw [hserver]
    exact turn_masks h.1.holds h.2 (h.1.cursor c hc) o

theorem flushes_step (s : State) (st : Step) (h : Inv lfd cap s ∧ Masks s.server)
    (_ : machine.ok s st) : Flushes s st := by
  rintro o i rfl hc hw hout
  have hi : i < s.server.currentClientNum := h.1.cursor (i + 1) hc
  have hfd := (holds_client h.1.holds hi).2
  obtain ⟨bytes, e⟩ := turn_flushes hfd ((h.2 i hi).message hout) hw o
  have hserver : (machine.step s (.iterate o)).server = flush s.server (i + 1) := by
    show (step s (.iterate o)).server = _
    simp only [step, hc, e]
  refine ⟨⟨bytes, ?_⟩, ?_⟩
  · simp only [acts, hc, e]
  · rw [hserver]
    exact flush_mask s.server (i + 1)

/-- In every run, each open client has one slot and asks in it either to be read or to be written
to, the latter only with a message there; and a client that asks to be written to is sent its
message where it is found writable, and read again. -/
theorem masks_exact (listenfd maxClientNum : Nat) (steps : List Step)
    (hv : machine.Valid (start listenfd maxClientNum) steps) :
    machine.Always Masked (start listenfd maxClientNum) steps ∧
      machine.Each Flushes (start listenfd maxClientNum) steps := by
  have hstart : Inv listenfd maxClientNum (start listenfd maxClientNum) ∧
      Masks (start listenfd maxClientNum).server :=
    ⟨inv_start listenfd maxClientNum, fun j hj => absurd hj (Nat.not_lt_zero j)⟩
  refine ⟨(Machine.always_inv masks_step hstart hv).imp fun s h => ?_,
    Machine.each_inv masks_step flushes_step hstart hv⟩
  exact ⟨h.1.holds.clients, (List.nodup_cons.mp h.1.holds.nodup).2, h.2⟩

/-- Two clients join; the first sends a message, and the second is sent it. -/
theorem masks_exact_run :
    let readable : Events := { Events.zero with pollin := true }
    let writable : Events := { Events.zero with pollout := true }
    let idle : Step := .iterate ⟨none, .fail .again⟩
    let steps : List Step :=
      [.poll (some fun _ => readable), .iterate ⟨some 4, .fail .again⟩, idle,
        .poll (some fun j => if j = 0 then readable else .zero), .iterate ⟨some 5, .fail .again⟩,
        idle, idle,
        .poll (some fun j => if j = 1 then readable else .zero), idle,
        .iterate ⟨none, .data [97]⟩, idle,
        .poll (some fun j => if j = 2 then writable else .zero), idle, idle, idle]
    machine.Always Masked (start 3 128) steps ∧ machine.Each Flushes (start 3 128) steps := by
  intro readable writable idle steps
  exact masks_exact 3 128 steps (by decide +kernel)

end

end ServerPoll
end Unpvol1
