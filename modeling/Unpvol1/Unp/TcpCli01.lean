import Unpvol1.Lib.Progress
import Unpvol1.Unp.EchoPath
import Unpvol1.Unp.Readline

/-!
# Unp.TcpCli01

`str_cli` with two threads (`26chp/v1/tcpcli01.c`, `26chp/v2/tcpcli01.c`) against the echo server.
One side, `copyto`, copies lines from standard input to the socket, the other lines from the socket
to standard output; each waits in its own calls. When the latter is at its end, so is the program.

* `echoed` — what the lines of an input are up to their NULs.
* `Did`    — what a step can do.
* `Along`, `Bytes` — what the two sides know of the connection, and where the bytes are.
* `threads_end`  — every schedule ends with all of it on standard output, however little the
  connection holds: nothing keeps the two sides from going on.
* `threads_show` — at any time standard output is a first part of it.
-/

namespace Unpvol1
namespace TcpCli01

open Readline (MAXLINE newline)

/-! ## Lines -/

/-- What `fgets` with room for `n` characters takes of the input. -/
def fgets : Nat → List UInt8 → List UInt8
  | 0, _ => []
  | _, [] => []
  | n + 1, b :: l => if b = newline then [b] else b :: fgets n l

theorem fgets_prefix (n : Nat) (l : List UInt8) : fgets n l <+: l := by
  induction n generalizing l with
  | zero => exact List.nil_prefix
  | succ n ih =>
    cases l with
    | nil => exact List.nil_prefix
    | cons b l =>
      simp only [fgets]
      split
      · exact (List.prefix_cons_inj b).mpr List.nil_prefix
      · exact (List.prefix_cons_inj b).mpr (ih l)

theorem fgets_pos (n : Nat) (b : UInt8) (l : List UInt8) : 0 < (fgets (n + 1) (b :: l)).length := by
  simp only [fgets]
  split
  · exact Nat.one_pos
  · exact Nat.succ_pos _

/-- `fgets(sendline, MAXLINE, fp)` -/
def sendline (l : List UInt8) : List UInt8 := fgets (MAXLINE - 1) l

theorem sendline_isPrefix (l : List UInt8) : sendline l <+: l := fgets_prefix _ l

theorem sendline_pos {l : List UInt8} (h : l ≠ []) : 0 < (sendline l).length := by
  obtain ⟨b, l, rfl⟩ := List.exists_cons_of_ne_nil h
  exact fgets_pos _ b l

/-- What `writen(sockfd, sendline, strlen(sendline))` sends of each line of the input. -/
def echoed (input : List UInt8) : List UInt8 :=
  if input = [] then []
  else cut (sendline input) ++ echoed (input.drop (sendline input).length)
termination_by input.length
decreasing_by
  rename_i h
  have hpos := sendline_pos h
  have hlen := List.length_pos_iff.mpr h
  rw [List.length_drop]
  omega

theorem echoed_nil : echoed [] = [] := by
  rw [echoed, if_pos rfl]

theorem echoed_line {input : List UInt8} (h : input ≠ []) :
    echoed input = cut (sendline input) ++ echoed (input.drop (sendline input).length) := by
  rw [echoed, if_neg h]

theorem not_mem_echoed (input : List UInt8) : (0 : UInt8) ∉ echoed input := by
  induction input using echoed.induct with
  | case1 => simp [echoed_nil]
  | case2 input h ih =>
    rw [echoed_line h, List.mem_append]
    exact fun hin => hin.elim (not_mem_cut _) ih

/-- A text without NULs is sent as it is, whatever its lines. -/
theorem echoed_of_not_mem {input : List UInt8} (h : (0 : UInt8) ∉ input) :
    echoed input = input := by
  induction input using echoed.induct with
  | case1 => exact echoed_nil
  | case2 input hne ih =>
    have hpre := sendline_isPrefix input
    have hline : (0 : UInt8) ∉ sendline input := fun hin => h (hpre.subset hin)
    rw [echoed_line hne, cut_of_not_mem hline, ih fun hin => h (List.mem_of_mem_drop hin)]
    exact List.prefix_iff_eq_append.mp hpre

/-! ## The client -/

/-- Where `copyto` is: in `fgets`, in `writen` with `left` still to be written, or returned. -/
inductive Copy where
  | fgets
  | writing (left : List UInt8)
  | returned
deriving DecidableEq

def Copy.left : Copy → List UInt8
  | .writing left => left
  | .fgets | .returned => []

/-- `while(nleft)` -/
def Copy.writen (left : List UInt8) : Copy := if left = [] then .fgets else .writing left

/-- `buf` is what `my_read` has still to hand out, `line` what `readline` has stored. -/
structure State where
  copy : Copy
  stdin : List UInt8
  returned : Bool
  buf : List UInt8
  line : List UInt8
  stdout : List UInt8
  path : EchoPath.State

inductive Event where
  /-- `fgets`, and behind its NULL the `shutdown` and the return. -/
  | fgets
  /-- The kernel takes `n` bytes of a `write` of `copyto`. -/
  | write (n : Nat)
  /-- The value of a `read` of `my_read`. -/
  | read (n : Nat)
  /-- `my_read` hands out a byte. -/
  | byte
  | server (e : EchoPath.Event)

/-- `fputs(recvline, stdout)` -/
def fputs (line : List UInt8) (s : State) : State :=
  { s with stdout := s.stdout ++ cut line, line := [] }

def step (s : State) : Event → State
  | .fgets =>
    if s.stdin = [] then { s with copy := .returned, path := s.path.shutdown }
    else { s with
      copy := .writen (cut (sendline s.stdin))
      stdin := s.stdin.drop (sendline s.stdin).length }
  | .write n =>
    { s with copy := .writen (s.copy.left.drop n), path := s.path.send (s.copy.left.take n) }
  | .read 0 => if s.line = [] then { s with returned := true } else fputs s.line s
  | .read n => { s with buf := s.path.down.data.take n, path := s.path.recv n }
  | .byte =>
    match s.buf with
    | [] => s
    | b :: buf =>
      if b = newline ∨ s.line.length + 1 = MAXLINE - 1 then
        fputs (s.line ++ [b]) { s with buf := buf }
      else { s with buf := buf, line := s.line ++ [b] }
  | .server e => { s with path := EchoPath.step s.path e }

/-- The calls wait. The `exit(0)` behind `str_cli` ends `copyto`. -/
def ok (s : State) : Event → Prop
  | .fgets => s.returned = false ∧ s.copy = .fgets
  | .write n => s.returned = false ∧ s.path.up.Writes s.copy.left.length n
  | .read n => s.returned = false ∧ s.buf = [] ∧ s.path.down.Reads MAXLINE n
  | .byte => s.returned = false ∧ s.buf ≠ []
  | .server e => EchoPath.ok s.path e

def machine : Machine State Event := ⟨step, ok⟩

instance (s : State) : (e : Event) → Decidable (machine.ok s e)
  | .fgets => inferInstanceAs (Decidable (s.returned = false ∧ s.copy = .fgets))
  | .write n => inferInstanceAs (Decidable (s.returned = false ∧
      s.path.up.Writes s.copy.left.length n))
  | .read n => inferInstanceAs (Decidable (s.returned = false ∧ s.buf = [] ∧
      s.path.down.Reads MAXLINE n))
  | .byte => inferInstanceAs (Decidable (s.returned = false ∧ s.buf ≠ []))
  | .server e => inferInstanceAs (Decidable (EchoPath.ok s.path e))

def start (capUp capDown : Nat) (input : List UInt8) : State where
  copy := .fgets
  stdin := input
  returned := false
  buf := []
  line := []
  stdout := []
  path := EchoPath.start capUp capDown

@[simp] theorem left_fgets : Copy.fgets.left = [] := rfl
@[simp] theorem left_returned : Copy.returned.left = [] := rfl
@[simp] theorem left_writing (left : List UInt8) : (Copy.writing left).left = left := rfl

@[simp] theorem left_writen (left : List UInt8) : (Copy.writen left).left = left := by
  unfold Copy.writen
  split
  · rename_i h
    exact h.symm
  · rfl

theorem writen_ne_returned (left : List UInt8) : Copy.writen left ≠ .returned := by
  unfold Copy.writen
  split <;> simp

section
variable {s s' : State}

inductive Did (s : State) : State → Prop where
  | server (e : EchoPath.Event) (hok : EchoPath.ok s.path e) :
      Did s { s with path := EchoPath.step s.path e }
  | eof (hcopy : s.copy = .fgets) (hend : s.stdin = []) :
      Did s { s with copy := .returned, path := s.path.shutdown }
  | line (hcopy : s.copy = .fgets) (hne : s.stdin ≠ []) :
      Did s { s with
        copy := .writen (cut (sendline s.stdin))
        stdin := s.stdin.drop (sendline s.stdin).length }
  | push (n : Nat) (hpos : 0 < n) (hn : n ≤ s.copy.left.length) (hroom : n ≤ s.path.up.room) :
      Did s { s with
        copy := .writen (s.copy.left.drop n)
        path := s.path.send (s.copy.left.take n) }
  | last (hbuf : s.buf = []) (hend : s.path.down.AtEnd) (hline : s.line ≠ []) :
      Did s (fputs s.line s)
  | ended (hlive : s.returned = false) (hbuf : s.buf = []) (hend : s.path.down.AtEnd)
      (hline : s.line = []) : Did s { s with returned := true }
  | fetch (n : Nat) (hbuf : s.buf = []) (hpos : 0 < n) (hn : n ≤ s.path.down.data.length) :
      Did s { s with buf := s.path.down.data.take n, path := s.path.recv n }
  | store (b : UInt8) (buf : List UInt8) (hbuf : s.buf = b :: buf) :
      Did s { s with buf := buf, line := s.line ++ [b] }
  | print (b : UInt8) (buf : List UInt8) (hbuf : s.buf = b :: buf) :
      Did s (fputs (s.line ++ [b]) { s with buf := buf })

theorem step_did {e : Event} (hok : machine.ok s e) : Did s (machine.step s e) := by
  cases e with
  | server e => exact .server e hok
  | fgets =>
    obtain ⟨_, hcopy⟩ := hok
    simp only [machine, step]
    split
    next hend => exact .eof hcopy hend
    next hne => exact .line hcopy hne
  | write n =>
    obtain ⟨_, hpos, hn, hroom⟩ := hok
    exact .push n hpos hn hroom
  | read n =>
    obtain ⟨hlive, hbuf, _, hn, hend⟩ := hok
    cases n with
    | zero =>
      simp only [machine, step]
      split
      next hline => exact .ended hlive hbuf (hend rfl) hline
      next hline => exact .last hbuf (hend rfl) hline
    | succ n => exact .fetch (n + 1) hbuf (Nat.succ_pos n) hn
  | byte =>
    obtain ⟨_, hne⟩ := hok
    simp only [machine, step]
    cases hbuf : s.buf with
    | nil => exact absurd hbuf hne
    | cons b buf =>
      simp only
      split
      · exact .print b buf hbuf
      · exact .store b buf hbuf

/-! ## The two sides and the connection -/

structure Along (s : State) : Prop where
  path : EchoPath.Sound s.path
  fin : s.path.up.fin = true ↔ s.copy = .returned
  eof : s.copy = .returned → s.stdin = []
  left : ∀ left, s.copy = .writing left → left ≠ []
  back : s.returned = true → s.copy = .returned ∧ s.path.content = [] ∧ s.buf = [] ∧ s.line = []

theorem Along.did (h : Along s) (hd : Did s s') : Along s' := by
  have hwriting : ∀ left' left, Copy.writen left' = .writing left → left ≠ [] := by
    intro left' left heq
    unfold Copy.writen at heq
    split at heq
    · cases heq
    next hne =>
      cases heq
      exact hne
  cases hd with
  | server e hok =>
    refine ⟨EchoPath.step_sound h.path hok, ?_, h.eof, h.left, fun hret => ?_⟩
    · rw [EchoPath.step_fin]
      exact h.fin
    · rw [EchoPath.step_content hok]
      exact h.back hret
  | eof hcopy hend =>
    refine ⟨h.path.shutdown, ⟨fun _ => rfl, fun _ => rfl⟩, fun _ => hend,
      fun left hw => (by cases hw), fun hret => ?_⟩
    obtain ⟨_, hcontent, hrest⟩ := h.back hret
    exact ⟨rfl, hcontent, hrest⟩
  | line hcopy hne =>
    have hopen : ¬s.path.up.fin = true := fun hfin => by
      have := h.fin.mp hfin
      rw [hcopy] at this
      cases this
    refine ⟨h.path, ⟨fun hfin => absurd hfin hopen, fun heq => absurd heq (writen_ne_returned _)⟩,
      fun heq => absurd heq (writen_ne_returned _), fun left hw => hwriting _ _ hw,
      fun hret => ?_⟩
    have := (h.back hret).1
    rw [hcopy] at this
    cases this
  | push n hpos hn hroom =>
    have hcopy : s.copy ≠ .returned := fun heq => by
      rw [heq, left_returned, List.length_nil] at hn
      omega
    have hopen : s.path.up.fin = false := Bool.eq_false_iff.mpr fun hfin => hcopy (h.fin.mp hfin)
    refine ⟨h.path.send hopen,
      ⟨fun hfin => absurd (h.fin.mp hfin) hcopy, fun heq => absurd heq (writen_ne_returned _)⟩,
      fun heq => absurd heq (writen_ne_returned _), fun left hw => hwriting _ _ hw,
      fun hret => absurd (h.back hret).1 hcopy⟩
  | last hbuf hend hline =>
    refine ⟨h.path, h.fin, h.eof, h.left, fun hret => ?_⟩
    exact absurd (h.back hret).2.2.2 hline
  | ended hlive hbuf hend hline =>
    -- The way back only ends when the server has seen the FIN.
    obtain ⟨hcontent, hfin⟩ := h.path.ended hend
    exact ⟨h.path, h.fin, h.eof, h.left, fun _ => ⟨h.fin.mp hfin, hcontent, hbuf, hline⟩⟩
  | fetch n hbuf hpos hn =>
    refine ⟨h.path.recv, h.fin, h.eof, h.left, fun hret => ?_⟩
    have hdata : s.path.down.data = [] := by
      have := (h.back hret).2.1
      simp only [EchoPath.State.content, List.append_eq_nil_iff] at this
      exact this.1.1
    rw [hdata, List.length_nil] at hn
    omega
  | store b buf hbuf =>
    refine ⟨h.path, h.fin, h.eof, h.left, fun hret => ?_⟩
    have := (h.back hret).2.2.1
    simp [hbuf] at this
  | print b buf hbuf =>
    refine ⟨h.path, h.fin, h.eof, h.left, fun hret => ?_⟩
    have := (h.back hret).2.2.1
    simp [hbuf] at this

/-! ## The bytes -/

/-- Every byte that is sent is, in this order, on standard output, in `recvline`, in `read_buf`,
under way, or still to be taken by the socket. -/
def Bytes (input : List UInt8) (s : State) : Prop :=
  s.stdout ++ (s.line ++ (s.buf ++ (s.path.content ++ (s.copy.left ++ echoed s.stdin)))) =
    echoed input

/-- A line that has come back is printed whole. -/
theorem Bytes.cut {input : List UInt8} (h : Bytes input s) {l r : List UInt8}
    (hl : s.line ++ s.buf = l ++ r) : cut l = l := by
  refine cut_of_not_mem fun hin => not_mem_echoed input ?_
  have hmem : (0 : UInt8) ∈ s.line ++ s.buf := hl ▸ List.mem_append_left r hin
  rw [← h, ← List.append_assoc s.line]
  exact List.mem_append_right _ (List.mem_append_left _ hmem)

theorem Bytes.did {input : List UInt8} (h : Bytes input s) (hd : Did s s') : Bytes input s' := by
  have hcut := fun {l r : List UInt8} => h.cut (l := l) (r := r)
  unfold Bytes at *
  cases hd with
  | server e hok => rwa [EchoPath.step_content hok]
  | eof hcopy hend =>
    rw [hcopy] at h
    exact h
  | line hcopy hne =>
    rw [hcopy, left_fgets, List.nil_append, echoed_line hne] at h
    rwa [left_writen]
  | push n hpos hn hroom =>
    have hlen : (s.copy.left.take n).length ≤ s.path.up.room :=
      Nat.le_trans (List.length_take_le _ _) hroom
    rw [left_writen, EchoPath.send_content hlen, List.append_assoc s.path.content,
      ← List.append_assoc (s.copy.left.take n), List.take_append_drop]
    exact h
  | last hbuf hend hline =>
    simp only [fputs]
    rw [hcut (r := s.buf) rfl, List.nil_append, List.append_assoc]
    exact h
  | ended => exact h
  | fetch n hbuf hpos hn =>
    rw [← EchoPath.recv_content n, hbuf, List.nil_append] at h
    simpa using h
  | store b buf hbuf =>
    rw [hbuf] at h
    simpa using h
  | print b buf hbuf =>
    simp only [fputs]
    rw [hcut (l := s.line ++ [b]) (r := buf) (by simp [hbuf])]
    rw [hbuf] at h
    simpa using h

/-! ## Every step moves on -/

/-- Whether `copyto` has yet to return. -/
def Copy.toGo : Copy → Nat
  | .returned => 0
  | .fgets | .writing _ => 1

@[simp] theorem toGo_fgets : Copy.fgets.toGo = 1 := rfl
@[simp] theorem toGo_returned : Copy.returned.toGo = 0 := rfl

@[simp] theorem toGo_writen (left : List UInt8) : (Copy.writen left).toGo = 1 := by
  unfold Copy.writen
  split <;> rfl

/-- How far the bytes have to go, whether a line is begun, and the two ends that are to come. -/
def toGo (s : State) : Nat :=
  10 * s.stdin.length + 9 * s.copy.left.length + 2 * s.path.work + 2 * s.buf.length +
    (!s.line.isEmpty).toNat + s.copy.toGo + (!s.returned).toNat

theorem toGo_did (hd : Did s s') : toGo s' < toGo s := by
  cases hd with
  | server e hok =>
    have := EchoPath.step_work hok
    simp only [toGo]
    omega
  | eof hcopy hend =>
    simp only [toGo, hcopy, EchoPath.shutdown_work, left_fgets, left_returned, toGo_fgets,
      toGo_returned]
    omega
  | line hcopy hne =>
    have hpos := sendline_pos hne
    have hpre := (sendline_isPrefix s.stdin).length_le
    have hcut : (cut (sendline s.stdin)).length ≤ (sendline s.stdin).length :=
      (List.takeWhile_prefix _).length_le
    simp only [toGo, hcopy, left_writen, left_fgets, toGo_writen, toGo_fgets, List.length_drop,
      List.length_nil]
    omega
  | push n hpos hn hroom =>
    have hlen : (s.copy.left.take n).length ≤ s.path.up.room :=
      Nat.le_trans (List.length_take_le _ _) hroom
    have hwork := EchoPath.send_work hlen
    have hcopy : s.copy.toGo = 1 := by
      cases hc : s.copy with
      | writing left => rfl
      | fgets => rfl
      | returned =>
        rw [hc, left_returned, List.length_nil] at hn
        omega
    rw [List.length_take] at hwork
    simp only [toGo, left_writen, toGo_writen, hcopy, List.length_drop]
    omega
  | last hbuf hend hline =>
    have hfull : s.line.isEmpty = false := by simpa using hline
    simp only [toGo, fputs, hfull, List.isEmpty_nil, Bool.not_true, Bool.not_false,
      Bool.toNat_false, Bool.toNat_true]
    omega
  | ended hlive hbuf hend hline =>
    simp only [toGo, hlive, Bool.not_true, Bool.not_false, Bool.toNat_false, Bool.toNat_true]
    omega
  | fetch n hbuf hpos hn =>
    have hwork := EchoPath.recv_work hn
    simp only [toGo, hbuf, List.length_take, List.length_nil]
    omega
  | store b buf hbuf =>
    have hline := Bool.toNat_le (!(s.line ++ [b]).isEmpty)
    simp only [toGo, hbuf, List.length_cons]
    omega
  | print b buf hbuf =>
    simp only [toGo, fputs, hbuf, List.length_cons, List.isEmpty_nil, Bool.not_true,
      Bool.toNat_false]
    omega

/-! ## Where a session stops -/

theorem caps_did (hd : Did s s') :
    s'.path.up.cap = s.path.up.cap ∧ s'.path.down.cap = s.path.down.cap := by
  cases hd with
  | server e hok => exact EchoPath.step_caps s.path e
  | _ => exact ⟨rfl, rfl⟩

/-- While the reader waits, the server or the writer can move. -/
theorem returned_of_stuck (h : Along s) (hup : 0 < s.path.up.cap) (hdown : 0 < s.path.down.cap)
    (hstuck : machine.Stuck s) : s.returned = true := by
  by_contra hno
  have hlive : s.returned = false := Bool.eq_false_iff.mpr hno
  have hbuf : s.buf = [] := by
    by_contra hne
    exact hstuck .byte ⟨hlive, hne⟩
  have hread : ¬s.path.down.Readable := by
    intro hr
    obtain ⟨n, hn⟩ := (Channel.exists_reads (show 0 < MAXLINE by decide)).mpr hr
    exact hstuck (.read n) ⟨hlive, hbuf, hn⟩
  obtain ⟨hdata, hfin⟩ := not_or.mp hread
  have hdata : s.path.down.data = [] := not_not.mp hdata
  obtain ⟨_, hwait⟩ | ⟨_, hfull⟩ | hret :=
    (EchoPath.waits_iff h.path).mp fun e => hstuck (.server e)
  · obtain ⟨hempty, hopen⟩ := not_or.mp hwait
    have hempty : s.path.up.data = [] := not_not.mp hempty
    cases hcopy : s.copy with
    | fgets => exact hstuck .fgets ⟨hlive, hcopy⟩
    | returned => exact hopen (h.fin.mpr hcopy)
    | writing left =>
      have hlen := List.length_pos_iff.mpr (h.left left hcopy)
      have hroom := s.path.up.length_eq
      rw [hempty, List.length_nil] at hroom
      have hfree : 0 < s.path.up.room := by omega
      obtain ⟨n, hn⟩ := (Channel.exists_writes hlen).mpr hfree
      exact hstuck (.write n) ⟨hlive, by rw [hcopy]; exact hn⟩
  · have hroom := s.path.down.length_eq
    rw [hdata, List.length_nil] at hroom
    omega
  · exact hfin (h.path.returned_iff.mp hret)

end

/-- Both sides and the server are at their end, and what was sent has come back. -/
def Echoed (input : List UInt8) (s : State) : Prop :=
  s.returned = true ∧ s.copy = .returned ∧ s.path.serv = .returned ∧ s.stdout = echoed input

theorem start_along (capUp capDown : Nat) (input : List UInt8) :
    Along (start capUp capDown input) where
  path := EchoPath.start_sound capUp capDown
  fin := ⟨fun h => (by cases h), fun h => (by cases h)⟩
  eof := fun h => by cases h
  left := fun left h => by cases h
  back := fun h => by cases h

theorem start_bytes (capUp capDown : Nat) (input : List UInt8) :
    Bytes input (start capUp capDown input) := by
  simp [Bytes, start]

/-- At any time standard output is a first part of what the lines of the input are up to their NULs,
and the side that reads the socket does not return before the other. -/
theorem threads_show (capUp capDown : Nat) (input : List UInt8) (es : List Event)
    (hv : machine.Valid (start capUp capDown input) es) :
    machine.Always (fun s => s.stdout <+: echoed input ∧ (s.returned = true → s.copy = .returned))
      (start capUp capDown input) es := by
  have hinv := Machine.always_inv (M := machine) (I := fun s => Along s ∧ Bytes input s)
    (fun _ _ h hok => ⟨h.1.did (step_did hok), h.2.did (step_did hok)⟩)
    ⟨start_along capUp capDown input, start_bytes capUp capDown input⟩ hv
  refine hinv.imp fun s h => ⟨?_, fun hret => (h.1.back hret).1⟩
  exact ⟨_, h.2⟩

/-- A line is sent, echoed and read; the NUL is not. -/
def oneLine : List Event :=
  [.fgets, .write 2, .server (.read 2), .server (.write 1), .read 1, .byte, .server (.write 1),
    .fgets]

theorem threads_show_oneLine :
    machine.Always (fun s => s.stdout <+: echoed [104, 105, 0, 10] ∧
      (s.returned = true → s.copy = .returned)) (start 2 1 [104, 105, 0, 10]) oneLine :=
  threads_show 2 1 [104, 105, 0, 10] oneLine (by decide +kernel)

/-- Every session ends, whatever the schedule, the sizes of the reads and writes and the input, and
however little the connection holds: the two sides and the server never wait for each other in a
ring, and all three return. -/
theorem threads_end {capUp capDown : Nat} (hup : 0 < capUp) (hdown : 0 < capDown)
    (input : List UInt8) :
    machine.Ends (10 * input.length + 4) (Echoed input) (start capUp capDown input) := by
  have hends := Machine.ends_of_measure (M := machine)
    (I := fun s => Along s ∧ Bytes input s ∧ 0 < s.path.up.cap ∧ 0 < s.path.down.cap)
    (Q := Echoed input) toGo
    (fun s e h hok => by
      have hd := step_did hok
      obtain ⟨hcu, hcd⟩ := caps_did hd
      exact ⟨h.1.did hd, h.2.1.did hd, hcu ▸ h.2.2.1, hcd ▸ h.2.2.2⟩)
    (fun s e h hok => toGo_did (step_did hok))
    (fun s h hstuck => by
      obtain ⟨halong, hbytes, hcu, hcd⟩ := h
      have hret := returned_of_stuck halong hcu hcd hstuck
      obtain ⟨hcopy, hcontent, hbuf, hline⟩ := halong.back hret
      refine ⟨hret, hcopy, ?_, ?_⟩
      · exact halong.path.returned_of_stuck hcontent (halong.fin.mpr hcopy)
          fun e => hstuck (.server e)
      · unfold Bytes at hbytes
        simpa [hcopy, hcontent, hbuf, hline, halong.eof hcopy, echoed_nil] using hbytes)
    ⟨start_along capUp capDown input, start_bytes capUp capDown input, hup, hdown⟩
  exact hends

theorem threads_end_one :
    machine.Ends (10 * 3 + 4) (Echoed [104, 105, 10]) (start 1 1 [104, 105, 10]) :=
  threads_end Nat.one_pos Nat.one_pos [104, 105, 10]

end TcpCli01
end Unpvol1
