import Unpvol1.Springsnail.ConnRelay

/-!
# Springsnail.ConnCodes

What the return code of a transfer says, in terms of the outcomes the kernel had in store.

`Drains`, `SendFails` and `RecvFails` are predicates on those outcomes alone: all pending bytes are
taken, the peer is found gone or in error before that, the peer is found gone or in error before
the socket has nothing more and before the buffer is full. `writeLoop_exit` and `readLoop_exit`
match each exit of the loops with them.
-/

namespace Unpvol1
namespace Springsnail

/-- Successive `send`s take all of `n` pending bytes. -/
def Drains : List SendOutcome → Nat → Bool
  | _, 0 => true
  | .take (k + 1) :: os, n + 1 => Drains os (n - k)
  | _, _ + 1 => false

/-- Successive `send`s of `n` pending bytes meet a closed socket or an error. -/
def SendFails : List SendOutcome → Nat → Bool
  | _, 0 => false
  | [], _ + 1 => false
  | .fail e :: _, _ + 1 => e ≠ .again
  | .take 0 :: _, _ + 1 => true
  | .take (k + 1) :: os, n + 1 => SendFails os (n - k)

/-- Successive `recv`s into room for `n` bytes meet end of stream or an error. -/
def RecvFails : List RecvOutcome → Nat → Bool
  | _, 0 => false
  | [], _ + 1 => false
  | .fail e :: _, _ + 1 => e ≠ .again
  | .data [] :: _, _ + 1 => true
  | .data (_ :: bs) :: os, n + 1 => RecvFails os (n - bs.length)

section Outcomes

variable {len k n r : Nat} {b : UInt8} {bs : List UInt8}

theorem drains_succ (os : List SendOutcome) :
    Drains (.take (k + 1) :: os) (n + 1) = Drains os (n - k) := rfl

theorem sendFails_succ (os : List SendOutcome) :
    SendFails (.take (k + 1) :: os) (n + 1) = SendFails os (n - k) := rfl

theorem recvFails_cons (os : List RecvOutcome) :
    RecvFails (.data (b :: bs) :: os) (n + 1) = RecvFails os (n - bs.length) := rfl

theorem send_take_succ (h : len = n + 1) : send len (.take (k + 1)) = .took (min k n + 1) := by
  simp only [send, h]
  congr 1
  omega

theorem recv_data_cons (h : len = n + 1) : recv len (.data (b :: bs)) = .got (b :: bs.take n) := by
  simp [recv, h]

/-- The room left after a `recv` that brought something. -/
theorem room_left (h : bufSize - r = n + 1) :
    n - bs.length = bufSize - (r + (b :: bs.take n).length) := by
  simp only [List.length_cons, List.length_take]
  omega

end Outcomes

section Loops

variable {fd : Int} {buf : List UInt8} {r w : Nat}

/-- How a write loop ends. -/
theorem writeLoop_exit (fd : Int) (buf : List UInt8) (os : List SendOutcome) (r w : Nat) :
    ((writeLoop fd buf os r w).code = .bufferEmpty ∧ (writeLoop fd buf os r w).readIdx = 0 ∧
      (writeLoop fd buf os r w).writeIdx = 0 ∧ Drains os (r - w) = true ∧
      SendFails os (r - w) = false) ∨
    ((writeLoop fd buf os r w).code = .tryAgain ∧
      (writeLoop fd buf os r w).writeIdx < (writeLoop fd buf os r w).readIdx ∧
      Drains os (r - w) = false ∧ SendFails os (r - w) = false) ∨
    (((writeLoop fd buf os r w).code = .ioerr ∨ (writeLoop fd buf os r w).code = .closed) ∧
      Drains os (r - w) = false ∧ SendFails os (r - w) = true) := by
  induction os generalizing w with
  | nil =>
    simp only [writeLoop]
    split
    · rename_i hle
      have h0 : r - w = 0 := by omega
      exact .inl ⟨rfl, rfl, rfl, by simp [h0, Drains], by simp [h0, SendFails]⟩
    · rename_i hlt
      obtain ⟨n, hn⟩ : ∃ n, r - w = n + 1 := ⟨r - w - 1, by omega⟩
      refine .inr (.inl ⟨rfl, by simpa using hlt, ?_, ?_⟩)
      · simp [hn, Drains]
      · simp [hn, SendFails]
  | cons o os ih =>
    simp only [writeLoop]
    split
    · rename_i hle
      have h0 : r - w = 0 := by omega
      exact .inl ⟨rfl, rfl, rfl, by simp [h0, Drains], by simp [h0, SendFails]⟩
    · rename_i hlt
      obtain ⟨n, hn⟩ : ∃ n, r - w = n + 1 := ⟨r - w - 1, by omega⟩
      cases o with
      | fail e =>
        cases e with
        | again =>
          exact .inr (.inl ⟨rfl, by simpa [send] using hlt, by simp [hn, Drains],
            by simp [hn, SendFails]⟩)
        | intr => exact .inr (.inr ⟨.inl rfl, by simp [hn, Drains], by simp [hn, SendFails]⟩)
        | other => exact .inr (.inr ⟨.inl rfl, by simp [hn, Drains], by simp [hn, SendFails]⟩)
      | take k =>
        cases k with
        | zero =>
          have htook : send (r - w) (.take 0) = .took 0 := by simp [send]
          rw [htook]
          exact .inr (.inr ⟨.inr rfl, by simp [hn, Drains], by simp [hn, SendFails]⟩)
        | succ k =>
          have hrest : n - k = r - (w + (min k n + 1)) := by omega
          rw [send_take_succ hn, hn, drains_succ, sendFails_succ, hrest]
          exact ih _

/-- A write loop finds its descriptor closed or in error just when the outcomes say so. -/
theorem writeLoop_failed (os : List SendOutcome) :
    failed fd (writeLoop fd buf os r w).calls = SendFails os (r - w) := by
  induction os generalizing w with
  | nil =>
    simp only [writeLoop]
    split
    · rename_i hle
      have h0 : r - w = 0 := by omega
      simp [h0, SendFails]
    · obtain ⟨n, hn⟩ : ∃ n, r - w = n + 1 := ⟨r - w - 1, by omega⟩
      simp [hn, SendFails, Call.fails]
  | cons o os ih =>
    simp only [writeLoop]
    split
    · rename_i hle
      have h0 : r - w = 0 := by omega
      simp [h0, SendFails]
    · obtain ⟨n, hn⟩ : ∃ n, r - w = n + 1 := ⟨r - w - 1, by omega⟩
      cases o with
      | fail e => cases e <;> simp [send, hn, SendFails, Call.fails]
      | take k =>
        cases k with
        | zero => simp [send, hn, SendFails, Call.fails]
        | succ k =>
          have hrest : n - k = r - (w + (min k n + 1)) := by omega
          rw [send_take_succ hn, hn, sendFails_succ, hrest, ← ih]
          simp [Call.fails]

/-- How a read loop ends. -/
theorem readLoop_exit (fd : Int) (w : Nat) (os : List RecvOutcome) (buf : List UInt8) (r : Nat) :
    ((readLoop fd w os buf r).code = .ok ∧ w < (readLoop fd w os buf r).readIdx ∧
      RecvFails os (bufSize - r) = false) ∨
    ((readLoop fd w os buf r).code = .nothing ∧ (readLoop fd w os buf r).readIdx ≤ w ∧
      RecvFails os (bufSize - r) = false) ∨
    ((readLoop fd w os buf r).code = .bufferFull ∧ RecvFails os (bufSize - r) = false) ∨
    (((readLoop fd w os buf r).code = .ioerr ∨ (readLoop fd w os buf r).code = .closed) ∧
      RecvFails os (bufSize - r) = true) := by
  have hpending : ∀ i, (pendingCode i w = .ok ∧ w < i) ∨ (pendingCode i w = .nothing ∧ i ≤ w) := by
    intro i
    unfold pendingCode
    split
    · exact .inl ⟨rfl, by omega⟩
    · exact .inr ⟨rfl, by omega⟩
  induction os generalizing buf r with
  | nil =>
    simp only [readLoop]
    split
    · rename_i hle
      have h0 : bufSize - r = 0 := by omega
      exact .inr (.inr (.inl ⟨rfl, by simp [h0, RecvFails]⟩))
    · obtain ⟨n, hn⟩ : ∃ n, bufSize - r = n + 1 := ⟨bufSize - r - 1, by omega⟩
      rcases hpending r with ⟨h1, h2⟩ | ⟨h1, h2⟩
      · exact .inl ⟨h1, h2, by simp [hn, RecvFails]⟩
      · exact .inr (.inl ⟨h1, h2, by simp [hn, RecvFails]⟩)
  | cons o os ih =>
    simp only [readLoop]
    split
    · rename_i hle
      have h0 : bufSize - r = 0 := by omega
      exact .inr (.inr (.inl ⟨rfl, by simp [h0, RecvFails]⟩))
    · obtain ⟨n, hn⟩ : ∃ n, bufSize - r = n + 1 := ⟨bufSize - r - 1, by omega⟩
      cases o with
      | fail e =>
        cases e with
        | again =>
          rcases hpending r with ⟨h1, h2⟩ | ⟨h1, h2⟩
          · exact .inl ⟨h1, h2, by simp [hn, RecvFails]⟩
          · exact .inr (.inl ⟨h1, h2, by simp [hn, RecvFails]⟩)
        | intr => exact .inr (.inr (.inr ⟨.inl rfl, by simp [hn, RecvFails]⟩))
        | other => exact .inr (.inr (.inr ⟨.inl rfl, by simp [hn, RecvFails]⟩))
      | data bs =>
        cases bs with
        | nil =>
          have hgot : recv (bufSize - r) (.data []) = .got [] := by simp [recv]
          rw [hgot]
          exact .inr (.inr (.inr ⟨.inr rfl, by simp [hn, RecvFails]⟩))
        | cons b bs =>
          rw [recv_data_cons hn, hn, recvFails_cons, room_left hn]
          exact ih _ _

/-- A read loop finds its descriptor closed or in error just when the outcomes say so. -/
theorem readLoop_failed (os : List RecvOutcome) (buf : List UInt8) (r : Nat) :
    failed fd (readLoop fd w os buf r).calls = RecvFails os (bufSize - r) := by
  induction os generalizing buf r with
  | nil =>
    simp only [readLoop]
    split
    · rename_i hle
      have h0 : bufSize - r = 0 := by omega
      simp [h0, RecvFails]
    · obtain ⟨n, hn⟩ : ∃ n, bufSize - r = n + 1 := ⟨bufSize - r - 1, by omega⟩
      simp [hn, RecvFails, Call.fails]
  | cons o os ih =>
    simp only [readLoop]
    split
    · rename_i hle
      have h0 : bufSize - r = 0 := by omega
      simp [h0, RecvFails]
    · obtain ⟨n, hn⟩ : ∃ n, bufSize - r = n + 1 := ⟨bufSize - r - 1, by omega⟩
      cases o with
      | fail e => cases e <;> simp [recv, hn, RecvFails, Call.fails]
      | data bs =>
        cases bs with
        | nil => simp [recv, hn, RecvFails, Call.fails]
        | cons b bs =>
          rw [recv_data_cons hn, hn, recvFails_cons, room_left hn,
            ← ih (blit buf r (b :: bs.take n)) (r + (b :: bs.take n).length)]
          simp [Call.fails]

end Loops
end Springsnail
end Unpvol1
