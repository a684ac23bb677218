import Mathlib.Data.List.Basic

/-!
# Lib.Socket

`recv` and `send` on non-blocking stream sockets, as the calling program sees them.

A `RecvOutcome` or `SendOutcome` is what the kernel has in store for one call; `recv` and `send`
cut it to the length the caller asked for, so every partial count is covered and no count exceeds
the request. A `recv` of nothing (end of stream, or a request for no bytes) returns no bytes, and so
does a `send` that takes none. A list of outcomes serves consecutive calls; when it is used up,
further calls report `again`.

A `Call` records one call with its result. `received` and `accepted` read the bytes of a
descriptor off such a record, and `failed` whether it reported end of stream or an error.
-/

namespace Unpvol1

inductive Errno where
  | again
  | intr
  | other
  deriving DecidableEq, Repr

inductive RecvOutcome where
  | data (bs : List UInt8)
  | fail (e : Errno)
  deriving DecidableEq, Repr

inductive SendOutcome where
  | take (n : Nat)
  | fail (e : Errno)
  deriving DecidableEq, Repr

/-- Result of a `recv` for at most `len` bytes; `got []` is the return value 0. -/
inductive RecvResult where
  | got (bs : List UInt8)
  | err (e : Errno)
  deriving DecidableEq, Repr

/-- Result of a `send`; `took n` is the return value `n`. -/
inductive SendResult where
  | took (n : Nat)
  | err (e : Errno)
  deriving DecidableEq, Repr

def recv (len : Nat) : RecvOutcome → RecvResult
  | .data bs => .got (bs.take len)
  | .fail e => .err e

def send (len : Nat) : SendOutcome → SendResult
  | .take n => .took (min n len)
  | .fail e => .err e

theorem recv_length {len : Nat} {o : RecvOutcome} {bs : List UInt8} (h : recv len o = .got bs) :
    bs.length ≤ len := by
  cases o with
  | data xs => cases h; exact List.length_take_le _ _
  | fail e => cases h

theorem send_le {len n : Nat} {o : SendOutcome} (h : send len o = .took n) : n ≤ len := by
  cases o with
  | take k => cases h; exact Nat.min_le_right _ _
  | fail e => cases h

inductive Call where
  | recv (fd : Int) (len : Nat) (res : RecvResult)
  | send (fd : Int) (data : List UInt8) (res : SendResult)
  deriving DecidableEq, Repr

namespace Call

/-- The bytes a call brought in from descriptor `d`. -/
def bytesIn (d : Int) : Call → List UInt8
  | .recv fd _ (.got bs) => if fd = d then bs else []
  | _ => []

/-- The bytes descriptor `d` took in a call. -/
def bytesOut (d : Int) : Call → List UInt8
  | .send fd data (.took n) => if fd = d then data.take n else []
  | _ => []

/-- The call found descriptor `d` closed by the peer or in error. -/
def fails (d : Int) : Call → Bool
  | .recv fd _ (.got bs) => fd = d ∧ bs = []
  | .recv fd _ (.err e) => fd = d ∧ e ≠ .again
  | .send fd _ (.took n) => fd = d ∧ n = 0
  | .send fd _ (.err e) => fd = d ∧ e ≠ .again

def fd : Call → Int
  | .recv fd _ _ => fd
  | .send fd _ _ => fd

def isRecv : Call → Bool
  | .recv _ _ _ => true
  | .send _ _ _ => false

/-- A `recv` asked for no bytes. -/
def asksNothing : Call → Bool
  | .recv _ len _ => len = 0
  | .send _ _ _ => false

end Call

def received (d : Int) (cs : List Call) : List UInt8 := cs.flatMap (Call.bytesIn d)

def accepted (d : Int) (cs : List Call) : List UInt8 := cs.flatMap (Call.bytesOut d)

def failed (d : Int) (cs : List Call) : Bool := cs.any (Call.fails d)

section
variable (d : Int) (c : Call) (cs cs' : List Call)

@[simp] theorem received_nil : received d [] = [] := rfl
@[simp] theorem accepted_nil : accepted d [] = [] := rfl
@[simp] theorem failed_nil : failed d [] = false := rfl

@[simp] theorem received_cons : received d (c :: cs) = c.bytesIn d ++ received d cs := rfl
@[simp] theorem accepted_cons : accepted d (c :: cs) = c.bytesOut d ++ accepted d cs := rfl
@[simp] theorem failed_cons : failed d (c :: cs) = (c.fails d || failed d cs) := rfl

@[simp] theorem received_append : received d (cs ++ cs') = received d cs ++ received d cs' := by
  simp [received]

@[simp] theorem accepted_append : accepted d (cs ++ cs') = accepted d cs ++ accepted d cs' := by
  simp [accepted]

@[simp] theorem failed_append : failed d (cs ++ cs') = (failed d cs || failed d cs') := by
  simp [failed]

end

/-! ## Calls on one descriptor -/

section
variable {d : Int} {fd : Int} {cs : List Call}

theorem received_of_fd (h : ∀ c ∈ cs, c.fd = fd) (hd : fd ≠ d) : received d cs = [] := by
  refine List.flatMap_eq_nil_iff.mpr fun c hc => ?_
  have hfd := h c hc
  cases c with
  | send => rfl
  | recv e len res =>
    cases res with
    | err => rfl
    | got bs =>
      subst hfd
      exact if_neg hd

theorem accepted_of_fd (h : ∀ c ∈ cs, c.fd = fd) (hd : fd ≠ d) : accepted d cs = [] := by
  refine List.flatMap_eq_nil_iff.mpr fun c hc => ?_
  have hfd := h c hc
  cases c with
  | recv => rfl
  | send e data res =>
    cases res with
    | err => rfl
    | took n =>
      subst hfd
      exact if_neg hd

theorem failed_of_fd (h : ∀ c ∈ cs, c.fd = fd) (hd : fd ≠ d) : failed d cs = false := by
  refine List.any_eq_false.mpr fun c hc => ?_
  have hfd := h c hc
  cases c with
  | recv e len res => subst hfd; cases res <;> simp_all [Call.fails, Call.fd]
  | send e data res => subst hfd; cases res <;> simp_all [Call.fails, Call.fd]

theorem accepted_of_recvs (h : ∀ c ∈ cs, c.isRecv = true) : accepted d cs = [] := by
  refine List.flatMap_eq_nil_iff.mpr fun c hc => ?_
  cases c with
  | recv => rfl
  | send => exact absurd (h _ hc) (by simp [Call.isRecv])

theorem received_of_sends (h : ∀ c ∈ cs, c.isRecv = false) : received d cs = [] := by
  refine List.flatMap_eq_nil_iff.mpr fun c hc => ?_
  cases c with
  | send => rfl
  | recv => exact absurd (h _ hc) (by simp [Call.isRecv])

end
end Unpvol1
