import Unpvol1.Unp.StrCli

/-!
# Unp.StrCliEnd

How the non-blocking `str_cli` returns.

* `Returns` — the step at which it does: end of file on the socket after end of file on standard
  input.
* `returned_drained_iff` — what was read from the socket is on standard output at the return just
  when `fr` is empty before it.
-/

namespace Unpvol1
namespace StrCli

/-- The step is the return: the socket is ready and at end of file, and so is standard input. -/
def Returns (sock : Sockfd) (s : State) : Event → Prop
  | .readSocket o => sock.fd ∈ s.rset ∧ recv (MAXLINE - s.frBuf.iptr) o = .got [] ∧
      s.stdineof = true
  | _ => False

instance (sock : Sockfd) (s : State) : (e : Event) → Decidable (Returns sock s e)
  | .select _ => inferInstanceAs (Decidable False)
  | .readStdin _ _ => inferInstanceAs (Decidable False)
  | .readSocket o => inferInstanceAs (Decidable (sock.fd ∈ s.rset ∧
      recv (MAXLINE - s.frBuf.iptr) o = .got [] ∧ s.stdineof = true))
  | .writeStdout _ => inferInstanceAs (Decidable False)
  | .writeSocket _ _ => inferInstanceAs (Decidable False)

/-- A return finds `fr` empty. -/
def Drained (sock : Sockfd) (s : State) (e : Event) : Prop :=
  Returns sock s e → s.frBuf.optr = s.frBuf.iptr

instance (sock : Sockfd) (s : State) (e : Event) : Decidable (Drained sock s e) :=
  inferInstanceAs (Decidable (_ → _))

/-- Once `str_cli` has returned, standard output has all that was read from the socket. -/
def AllWritten (sock : Sockfd) (s : State) : Prop :=
  s.pc = .returned → accepted STDOUT_FILENO (calls s.log) = received sock.fd (calls s.log)

instance (sock : Sockfd) (s : State) : Decidable (AllWritten sock s) :=
  inferInstanceAs (Decidable (_ → _))

section
variable {sock : Sockfd} {s : State}

theorem readStdin_not_returned (o : RecvOutcome) (shut : Bool) :
    (readStdin sock o shut s).pc ≠ .returned := by
  unfold readStdin
  simp only
  split
  · split
    · split <;> simp
    · split
      · cases shut <;> simp [shutdown]
      · simp
    · simp
  · simp

theorem writeStdout_not_returned (o : SendOutcome) : (writeStdout o s).pc ≠ .returned := by
  unfold writeStdout
  simp only
  split
  · split
    · split <;> simp
    · simp
  · simp

theorem writeSocket_not_returned (o : SendOutcome) (shut : Bool) :
    (writeSocket sock o shut s).pc ≠ .returned := by
  unfold writeSocket
  simp only
  split
  · split
    · split <;> simp
    · split
      · cases shut <;> simp [shutdown]
      · simp
  · simp

/-- The socket's branch is the only one that returns, and it does so with `fr` as it was. -/
theorem readSocket_returned_iff (o : RecvOutcome) :
    (readSocket sock o s).pc = .returned ↔ Returns sock s (.readSocket o) := by
  unfold readSocket Returns
  by_cases hset : sock.fd ∈ s.rset
  · cases hr : recv (MAXLINE - s.frBuf.iptr) o with
    | err e =>
      by_cases he : e = .again
      · simp [hset, hr, he]
      · simp [hset, hr, he]
    | got bs =>
      cases bs with
      | nil =>
        cases heof : s.stdineof with
        | true => simp [hset, hr]
        | false => simp [hset, hr]
      | cons b bs => simp [hset, hr]
  · simp [hset]

theorem step_returned_iff {e : Event} (hok : (machine sock).ok s e) :
    ((machine sock).step s e).pc = .returned ↔ Returns sock s e := by
  cases e with
  | select ready =>
    cases ready with
    | none => exact ⟨Pc.noConfusion, False.elim⟩
    | some ready => exact ⟨Pc.noConfusion, False.elim⟩
  | readStdin o shut => exact ⟨fun h => absurd h (readStdin_not_returned o shut), False.elim⟩
  | readSocket o => exact readSocket_returned_iff o
  | writeStdout o => exact ⟨fun h => absurd h (writeStdout_not_returned o), False.elim⟩
  | writeSocket o shut =>
    exact ⟨fun h => absurd h (writeSocket_not_returned o shut), False.elim⟩

theorem Returns.frBuf {e : Event} (h : Returns sock s e) :
    ((machine sock).step s e).frBuf = s.frBuf := by
  cases e with
  | readSocket o =>
    obtain ⟨hset, hr, _⟩ := h
    show (readSocket sock o s).frBuf = s.frBuf
    simp only [readSocket, hset, hr, if_true, record]
  | select _ => exact h.elim
  | readStdin _ _ => exact h.elim
  | writeStdout _ => exact h.elim
  | writeSocket _ _ => exact h.elim

/-- A step keeps `AllWritten` unless it is a return with bytes left in `fr`. -/
theorem allWritten_step_iff (h : Inv sock s) {e : Event} (hok : (machine sock).ok s e) :
    AllWritten sock ((machine sock).step s e) ↔ Drained sock s e := by
  have hempty := (step_inv h hok).relayed.down.empty_iff
  rw [AllWritten, Drained, step_returned_iff hok]
  refine imp_congr_right fun hret => hempty.trans ?_
  show ((machine sock).step s e).frBuf.optr = ((machine sock).step s e).frBuf.iptr ↔ _
  rw [hret.frBuf]

/-- In a run, whatever was read from the socket is on standard output when `str_cli` returns, just
when end of file on the socket is only met with `fr` empty. -/
theorem returned_drained_iff (sock : Sockfd) (toMem frMem : Memory) (es : List Event)
    (hv : (machine sock).Valid (start toMem frMem) es) :
    (machine sock).Always (AllWritten sock) (start toMem frMem) es ↔
      (machine sock).Each (Drained sock) (start toMem frMem) es :=
  Machine.always_iff_each (fun _ _ h hok => step_inv h hok)
    (fun _ _ h hok _ => allWritten_step_iff h hok) (start_inv toMem frMem)
    (fun h => nomatch h) hv

/-- Standard input ends, and the socket brings a byte that standard output does not take yet. -/
def slowStdout : List Event :=
  [.select (some ({0}, ∅)), .readStdin (.data []) true, .readSocket (.fail .again),
    .writeStdout (.fail .again), .writeSocket (.fail .again) true,
    .select (some ({3}, ∅)), .readStdin (.fail .again) true, .readSocket (.data [65]),
    .writeStdout (.fail .again), .writeSocket (.fail .again) true]

/-- The socket ends next. -/
def socketEnds : List Event :=
  [.select (some ({3}, ∅)), .readStdin (.fail .again) true, .readSocket (.data [])]

/-- The byte is written before that. -/
def stdoutCatchesUp : List Event :=
  [.select (some (∅, {1})), .readStdin (.fail .again) true, .readSocket (.fail .again),
    .writeStdout (.take 1), .writeSocket (.fail .again) true]

theorem returned_drained_catches_up :
    (machine sock3).Always (AllWritten sock3) (start blank blank)
        (slowStdout ++ stdoutCatchesUp ++ socketEnds) ↔
      (machine sock3).Each (Drained sock3) (start blank blank)
        (slowStdout ++ stdoutCatchesUp ++ socketEnds) :=
  returned_drained_iff sock3 blank blank _ (by decide +kernel)

/-- `str_cli` returns with the byte still in `fr`. -/
theorem returned_not_drained :
    (machine sock3).Valid (start blank blank) (slowStdout ++ socketEnds) ∧
      ¬ AllWritten sock3 ((machine sock3).run (start blank blank) (slowStdout ++ socketEnds)) := by
  decide +kernel

end
end StrCli
end Unpvol1
