import Unpvol1.Lib.Channel
import Unpvol1.Lib.Machine
import Unpvol1.Unp.StrEcho

/-!
# Unp.EchoPath

What lies between the two ends of a client of the echo server: the connection to the server,
`str_echo`, and the connection back. A step is a `read` or a `write` of `str_echo`, which may bring
or take any part of what it is for; both wait.

* `content`      — the bytes under way, the next to come back first.
* `step_content` — the server loses and reorders nothing.
* `Sound`        — `str_echo` returns at end of stream only, and the way back ends with it.
* `waits_iff`    — when the server cannot move; `Sound.returned_of_stuck` — at the end it returned.
-/

namespace Unpvol1
namespace EchoPath

open StrEcho (MAXLINE)

/-- Where `str_echo` is: in `read`, in `writen` with `left` still to be written, or returned. -/
inductive Serv where
  | reading
  | writing (left : List UInt8)
  | returned
deriving DecidableEq

/-- What `str_echo` has read and not yet written. -/
def Serv.held : Serv → List UInt8
  | .writing left => left
  | _ => []

/-- Whether it has yet to return. -/
def Serv.toGo : Serv → Nat
  | .returned => 0
  | _ => 1

structure State where
  up : Channel UInt8
  serv : Serv
  down : Channel UInt8

/-- A call of `read` or `write` with the value it returns. -/
inductive Event where
  | read (n : Nat)
  | write (n : Nat)
deriving DecidableEq

/-- `while ((n = read(sockfd, buf, MAXLINE)) > 0) writen(sockfd, buf, n);`, and `exit(0)` behind it,
which closes the connection. -/
def step (s : State) : Event → State
  | .read 0 => { s with serv := .returned, down := s.down.finish }
  | .read n => { s with up := s.up.pull n, serv := .writing (s.up.data.take n) }
  | .write n =>
    match s.serv with
    | .writing left =>
      { s with
        serv := if left.length = n then .reading else .writing (left.drop n)
        down := s.down.push (left.take n) }
    | _ => s

def ok (s : State) : Event → Prop
  | .read n => s.serv = .reading ∧ s.up.Reads MAXLINE n
  | .write n => s.down.Writes s.serv.held.length n

instance (s : State) : (e : Event) → Decidable (ok s e)
  | .read n => inferInstanceAs (Decidable (s.serv = .reading ∧ s.up.Reads MAXLINE n))
  | .write n => inferInstanceAs (Decidable (s.down.Writes s.serv.held.length n))

/-- The bytes on their way, from the one that comes back next to the one sent last. -/
def State.content (s : State) : List UInt8 := s.down.data ++ s.serv.held ++ s.up.data

/-- How far the bytes under way and the end of the stream still have to go. -/
def State.work (s : State) : Nat :=
  4 * s.up.data.length + 3 * s.serv.held.length + 2 * s.down.data.length + s.serv.toGo

structure Sound (s : State) : Prop where
  returned_iff : s.serv = .returned ↔ s.down.fin = true
  atEnd : s.serv = .returned → s.up.AtEnd
  held : ∀ left, s.serv = .writing left → left ≠ [] ∧ left.length ≤ min MAXLINE s.up.cap

def start (capUp capDown : Nat) : State := ⟨.empty capUp, .reading, .empty capDown⟩

section
variable {s : State}

/-! ## The server -/

/-- What a step of the server can do. -/
theorem step_cases {e : Event} (hok : ok s e) :
    (e = .read 0 ∧ s.serv = .reading ∧ s.up.AtEnd ∧
      step s e = { s with serv := .returned, down := s.down.finish }) ∨
    (∃ n, e = .read n ∧ 0 < n ∧ n ≤ MAXLINE ∧ n ≤ s.up.data.length ∧ s.serv = .reading ∧
      step s e = { s with up := s.up.pull n, serv := .writing (s.up.data.take n) }) ∨
    ∃ left n, e = .write n ∧ s.serv = .writing left ∧ 0 < n ∧ n ≤ left.length ∧ n ≤ s.down.room ∧
      step s e = { s with
        serv := if left.length = n then .reading else .writing (left.drop n)
        down := s.down.push (left.take n) } := by
  cases e with
  | read n =>
    obtain ⟨hserv, hmax, hlen, hend⟩ := hok
    cases n with
    | zero => exact .inl ⟨rfl, hserv, hend rfl, rfl⟩
    | succ n => exact .inr (.inl ⟨n + 1, rfl, Nat.succ_pos n, hmax, hlen, hserv, rfl⟩)
  | write n =>
    obtain ⟨hpos, hle, hroom⟩ := hok
    cases hserv : s.serv with
    | writing left =>
      rw [hserv] at hle
      refine .inr (.inr ⟨left, n, rfl, rfl, hpos, hle, hroom, ?_⟩)
      simp only [step, hserv]
    | reading =>
      simp only [hserv, Serv.held, List.length_nil] at hle
      omega
    | returned =>
      simp only [hserv, Serv.held, List.length_nil] at hle
      omega

@[simp] theorem held_reading : Serv.reading.held = [] := rfl
@[simp] theorem held_writing (left : List UInt8) : (Serv.writing left).held = left := rfl
@[simp] theorem held_returned : Serv.returned.held = [] := rfl
@[simp] theorem toGo_reading : Serv.reading.toGo = 1 := rfl
@[simp] theorem toGo_writing (left : List UInt8) : (Serv.writing left).toGo = 1 := rfl
@[simp] theorem toGo_returned : Serv.returned.toGo = 0 := rfl

theorem held_after_write (left : List UInt8) (n : Nat) :
    (if left.length = n then Serv.reading else .writing (left.drop n)).held = left.drop n := by
  split
  · rename_i h
    rw [← h, List.drop_length]
    rfl
  · rfl

theorem step_content {e : Event} (hok : ok s e) : (step s e).content = s.content := by
  obtain ⟨rfl, hserv, hend, heq⟩ | ⟨n, rfl, _, _, _, hserv, heq⟩ |
    ⟨left, n, rfl, hserv, _, hle, hroom, heq⟩ := step_cases hok
  · simp [heq, State.content, hserv]
  · simp [heq, State.content, hserv]
  · have htake : (left.take n).length ≤ s.down.room :=
      Nat.le_trans (List.length_take_le _ _) hroom
    simp only [heq, State.content, held_after_write, Channel.push_data htake, hserv, held_writing]
    rw [List.append_assoc s.down.data, List.take_append_drop]

theorem step_work {e : Event} (hok : ok s e) : (step s e).work < s.work := by
  obtain ⟨rfl, hserv, hend, heq⟩ | ⟨n, rfl, hpos, _, hlen, hserv, heq⟩ |
    ⟨left, n, rfl, hserv, hpos, hle, hroom, heq⟩ := step_cases hok
  · simp [heq, State.work, hserv]
  · simp only [heq, State.work, hserv, held_reading, held_writing, Channel.pull_data,
      List.length_drop, List.length_take, List.length_nil, toGo_reading, toGo_writing]
    omega
  · have htake : (left.take n).length ≤ s.down.room :=
      Nat.le_trans (List.length_take_le _ _) hroom
    have hgo : (if left.length = n then Serv.reading else .writing (left.drop n)).toGo = 1 := by
      split <;> rfl
    simp only [heq, State.work, held_after_write, Channel.push_data htake, hserv, held_writing, hgo,
      toGo_writing, List.length_append, List.length_drop, List.length_take]
    omega

theorem step_sound (h : Sound s) {e : Event} (hok : ok s e) : Sound (step s e) := by
  obtain ⟨rfl, hserv, hend, heq⟩ | ⟨n, rfl, hpos, hmax, hlen, hserv, heq⟩ |
    ⟨left, n, rfl, hserv, hpos, hle, hroom, heq⟩ := step_cases hok
  · rw [heq]
    exact ⟨by simp, fun _ => hend, fun left hw => by cases hw⟩
  · have hfin : s.down.fin ≠ true := fun hf => by
      have := h.returned_iff.mpr hf
      rw [hserv] at this
      cases this
    have hcap := s.up.fits
    rw [heq]
    refine ⟨by simp [hfin], fun hr => (by cases hr), fun left hw => ?_⟩
    cases hw
    constructor
    · rw [← List.length_pos_iff, List.length_take]
      omega
    · simp only [List.length_take, Channel.pull_cap]
      omega
  · have hfin : s.down.fin ≠ true := fun hf => by
      have := h.returned_iff.mpr hf
      rw [hserv] at this
      cases this
    have hheld := h.held left hserv
    rw [heq]
    refine ⟨?_, fun hr => ?_, fun left' hw => ?_⟩
    · split <;> simp [hfin]
    · dsimp only at hr
      split at hr <;> cases hr
    · dsimp only at hw
      split at hw
      · cases hw
      · cases hw
        rw [← List.length_pos_iff, List.length_drop]
        dsimp only
        omega

theorem step_readable {e : Event} (hok : ok s e) (h : s.down.Readable) :
    (step s e).down.Readable := by
  obtain ⟨rfl, hserv, hend, heq⟩ | ⟨n, rfl, _, _, _, hserv, heq⟩ |
    ⟨left, n, rfl, hserv, _, hle, hroom, heq⟩ := step_cases hok
  · rw [heq]
    exact .inr rfl
  · rw [heq]
    exact h
  · have htake : (left.take n).length ≤ s.down.room :=
      Nat.le_trans (List.length_take_le _ _) hroom
    rw [heq]
    refine h.imp (fun hd => ?_) id
    simp [Channel.push_data htake, hd]

theorem step_caps (s : State) (e : Event) :
    (step s e).up.cap = s.up.cap ∧ (step s e).down.cap = s.down.cap := by
  cases e with
  | read n => cases n <;> exact ⟨rfl, rfl⟩
  | write n =>
    simp only [step]
    split <;> exact ⟨rfl, rfl⟩

theorem step_fin (s : State) (e : Event) : (step s e).up.fin = s.up.fin := by
  cases e with
  | read n => cases n <;> rfl
  | write n =>
    simp only [step]
    split <;> rfl

/-- The server cannot move: it waits for the client to send, or to read, or it has returned. -/
theorem waits_iff (h : Sound s) :
    (∀ e, ¬ok s e) ↔ (s.serv = .reading ∧ ¬s.up.Readable) ∨
      (s.serv.held ≠ [] ∧ s.down.room = 0) ∨ s.serv = .returned := by
  constructor
  · intro hno
    cases hserv : s.serv with
    | reading =>
      refine .inl ⟨rfl, fun hr => ?_⟩
      have hlen : 0 < MAXLINE := by decide
      obtain ⟨n, hn⟩ := (Channel.exists_reads hlen).mpr hr
      exact hno (.read n) ⟨hserv, hn⟩
    | writing left =>
      have hne := (h.held left hserv).1
      refine .inr (.inl ⟨hne, Nat.eq_zero_of_not_pos fun hr => ?_⟩)
      obtain ⟨n, hn⟩ := (Channel.exists_writes (List.length_pos_iff.mpr hne)).mpr hr
      refine hno (.write n) ?_
      rw [ok, hserv]
      exact hn
    | returned => exact .inr (.inr rfl)
  · intro hw e hok
    obtain ⟨rfl, hserv, hend, _⟩ | ⟨n, rfl, hpos, _, hlen, hserv, _⟩ |
      ⟨left, n, rfl, hserv, hpos, hle, hroom, _⟩ := step_cases hok
    · obtain ⟨_, hr⟩ | ⟨hne, _⟩ | hret := hw
      · exact hr (.inr hend.2)
      · exact hne (by simp [hserv])
      · simp [hserv] at hret
    · obtain ⟨_, hr⟩ | ⟨hne, _⟩ | hret := hw
      · exact hr (.inl (List.length_pos_iff.mp (by omega)))
      · exact hne (by simp [hserv])
      · simp [hserv] at hret
    · obtain ⟨hr, _⟩ | ⟨_, hz⟩ | hret := hw
      · simp [hserv] at hr
      · omega
      · simp [hserv] at hret

/-- With nothing under way, and none to come, the server only stops once it has returned. -/
theorem Sound.returned_of_stuck (h : Sound s) (hcontent : s.content = []) (hfin : s.up.fin = true)
    (hstuck : ∀ e, ¬ok s e) : s.serv = .returned := by
  obtain ⟨_, hopen⟩ | ⟨hheld, _⟩ | hret := (waits_iff h).mp hstuck
  · exact absurd (.inr hfin) hopen
  · simp only [State.content, List.append_eq_nil_iff] at hcontent
    exact absurd hcontent.1.2 hheld
  · exact hret

/-! ## The client's calls -/

/-- The client's `write` takes `bs`. -/
def State.send (bs : List UInt8) (s : State) : State := { s with up := s.up.push bs }

/-- The client's `shutdown(sockfd, SHUT_WR)`. -/
def State.shutdown (s : State) : State := { s with up := s.up.finish }

/-- The client's `read` returns `n`. -/
def State.recv (n : Nat) (s : State) : State := { s with down := s.down.pull n }

section
variable {bs : List UInt8} {n : Nat}

theorem send_content (h : bs.length ≤ s.up.room) : (s.send bs).content = s.content ++ bs := by
  simp [State.content, State.send, Channel.push_data h]

@[simp] theorem shutdown_content : s.shutdown.content = s.content := rfl

/-- A `read` brings the first bytes of what is under way. -/
theorem recv_content (n : Nat) :
    s.down.data.take n ++ (s.recv n).content = s.content := by
  simp only [State.content, State.recv, Channel.pull_data]
  rw [← List.append_assoc, ← List.append_assoc, List.take_append_drop]

theorem send_work (h : bs.length ≤ s.up.room) :
    (s.send bs).work = s.work + 4 * bs.length := by
  simp only [State.work, State.send, Channel.push_data h, List.length_append]
  omega

@[simp] theorem shutdown_work : s.shutdown.work = s.work := rfl

theorem recv_work (h : n ≤ s.down.data.length) : (s.recv n).work + 2 * n = s.work := by
  simp only [State.work, State.recv, Channel.pull_data, List.length_drop]
  omega

theorem Sound.send (h : Sound s) (hfin : s.up.fin = false) : Sound (s.send bs) :=
  ⟨h.returned_iff, fun hr => absurd (h.atEnd hr).2 (by simp [hfin]), h.held⟩

theorem Sound.shutdown (h : Sound s) : Sound s.shutdown :=
  ⟨h.returned_iff, fun hr => ⟨(h.atEnd hr).1, rfl⟩, h.held⟩

theorem Sound.recv (h : Sound s) : Sound (s.recv n) := ⟨h.returned_iff, h.atEnd, h.held⟩

/-- The stream comes back to its end only after the client has shut its side down, and then nothing
is under way any more. -/
theorem Sound.ended (h : Sound s) (hend : s.down.AtEnd) : s.content = [] ∧ s.up.fin = true := by
  have hret := h.returned_iff.mpr hend.2
  obtain ⟨hup, hfin⟩ := h.atEnd hret
  exact ⟨by simp [State.content, hend.1, hret, hup], hfin⟩

/-- What is under way beyond what waits to be read. -/
theorem Sound.length_le (h : Sound s) :
    s.content.length ≤ s.down.data.length + min MAXLINE s.up.cap + s.up.cap := by
  have hup := s.up.fits
  have hheld : s.serv.held.length ≤ min MAXLINE s.up.cap := by
    cases hserv : s.serv with
    | writing left => exact (h.held left hserv).2
    | reading => exact Nat.zero_le _
    | returned => exact Nat.zero_le _
  simp only [State.content, List.length_append]
  omega

theorem start_sound (capUp capDown : Nat) : Sound (start capUp capDown) :=
  ⟨by simp [start], fun h => (by cases h), fun left h => by cases h⟩

@[simp] theorem start_content (capUp capDown : Nat) : (start capUp capDown).content = [] := rfl

end

end
end EchoPath
end Unpvol1
