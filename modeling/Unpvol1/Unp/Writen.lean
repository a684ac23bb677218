import Mathlib.Algebra.Group.Int.Defs
import Mathlib.Algebra.Group.Nat.Defs
import Mathlib.Data.List.Basic

/-!
# Unp.Writen

`writen` of `15chp/unixstrserv01.c` and of `30chp/serv08.c`, `readn` of `16chp/readn.c` and of
`30chp/client.c`. Each pair is one loop, but for the type of the variable that takes the result of
`write` or `read`: `ssize_t` in the one, `size_t` in the other.

* `loop`          — a call of `write` or `read` for what is left, until nothing is.
* `writenTurn`, `readnTurn` — the tests behind a call, in the order of the one type or the other.
* `Fails`         — some call of the loop returns -1.
* `loop_same_iff` — both loops do the same just when none does, by induction on the outcomes.
-/

namespace Unpvol1
namespace Writen

/-- How a `write` or a `read` comes out: -1 with EINTR, -1 with another `errno`, or a count. -/
inductive Sys where
  | intr
  | fail
  | count (k : Nat)
deriving DecidableEq

/-- The type of the result: `ssize_t` or `size_t`. -/
inductive Sign where
  | ssize
  | size

section
variable {w : Nat}

/-- The largest `ssize_t` of `w` bits. -/
def ssizeMax (w : Nat) : Nat := 2 ^ (w - 1) - 1

/-- How many of the `len` bytes asked for are moved. -/
def Sys.moved (len : BitVec w) : Sys → Nat
  | .count k => min k (min len.toNat (ssizeMax w))
  | _ => 0

def Sys.result (len : BitVec w) : Sys → BitVec w
  | .count k => BitVec.ofNat w (Sys.moved len (.count k))
  | _ => -1#w

/-- `errno == EINTR` -/
def Sys.eintr : Sys → Bool
  | .intr => true
  | _ => false

def Sign.lt : Sign → BitVec w → BitVec w → Bool
  | .ssize => BitVec.slt
  | .size => BitVec.ult

def Sign.le : Sign → BitVec w → BitVec w → Bool
  | .ssize => BitVec.sle
  | .size => BitVec.ule

/-- What a turn of the loop comes to. -/
inductive Turn (w : Nat) where
  /-- `nleft -= x; ptr += x;` -/
  | advance (x : BitVec w)
  /-- `return(-1);` -/
  | error
  /-- `break;` -/
  | eof

/-- The tests of `writen` on the result `x`. -/
def writenTurn (sign : Sign) (x : BitVec w) (eintr : Bool) : Turn w :=
  if sign.le x 0#w then
    if sign.lt x 0#w && eintr then .advance 0#w else .error
  else
    .advance x

/-- The tests of `readn` on the result `x`. -/
def readnTurn (sign : Sign) (x : BitVec w) (eintr : Bool) : Turn w :=
  if sign.lt x 0#w then
    if eintr then .advance 0#w else .error
  else if x = 0#w then
    .eof
  else
    .advance x

/-- A call: where in the caller's buffer, for how many bytes, and how many it moved. -/
structure Call (w : Nat) where
  off : BitVec w
  len : BitVec w
  moved : Nat
deriving DecidableEq

/-- The calls made, the value returned if the function has, and the outcomes that are left. The last
call of a loop that has not returned is still to come out. -/
structure Trace (w : Nat) where
  calls : List (Call w)
  ret : Option (BitVec w)
  rest : List Sys
deriving DecidableEq

def Trace.after (c : Call w) (t : Trace w) : Trace w := { t with calls := c :: t.calls }

/-- `while (nleft > 0)`; `finish` is what is returned behind the loop. -/
def loop (turn : BitVec w → Bool → Turn w) (finish : BitVec w → BitVec w) :
    BitVec w → BitVec w → List Sys → Trace w
  | nleft, ptr, [] =>
    if nleft = 0#w then ⟨[], some (finish nleft), []⟩ else ⟨[⟨ptr, nleft, 0⟩], none, []⟩
  | nleft, ptr, o :: os =>
    if nleft = 0#w then
      ⟨[], some (finish nleft), o :: os⟩
    else
      match turn (o.result nleft) o.eintr with
      | .advance x =>
        (loop turn finish (nleft - x) (ptr + x) os).after ⟨ptr, nleft, o.moved nleft⟩
      | .error => ⟨[⟨ptr, nleft, o.moved nleft⟩], some (-1#w), os⟩
      | .eof => ⟨[⟨ptr, nleft, o.moved nleft⟩], some (finish nleft), os⟩

/-- `15chp/unixstrserv01.c` -/
def Chp15.writen (n : BitVec w) (os : List Sys) : Trace w :=
  loop (writenTurn .ssize) (fun _ => n) n 0#w os

/-- `30chp/serv08.c` -/
def Chp30.writen (n : BitVec w) (os : List Sys) : Trace w :=
  loop (writenTurn .size) (fun _ => n) n 0#w os

/-- `16chp/readn.c` -/
def Chp16.readn (n : BitVec w) (os : List Sys) : Trace w :=
  loop (readnTurn .ssize) (fun nleft => n - nleft) n 0#w os

/-- `30chp/client.c` -/
def Chp30.readn (n : BitVec w) (os : List Sys) : Trace w :=
  loop (readnTurn .size) (fun nleft => n - nleft) n 0#w os

/-! ## One turn -/

theorem moved_le (len : BitVec w) (o : Sys) :
    o.moved len ≤ len.toNat ∧ o.moved len ≤ ssizeMax w := by
  cases o with
  | intr => exact ⟨Nat.zero_le _, Nat.zero_le _⟩
  | fail => exact ⟨Nat.zero_le _, Nat.zero_le _⟩
  | count k =>
    simp only [Sys.moved]
    omega

theorem pos_of_ne {x : BitVec w} (h : x ≠ 0#w) : 0 < w := by
  cases w with
  | zero => exact absurd (BitVec.eq_nil x |>.trans (BitVec.eq_nil 0#0).symm) h
  | succ w => exact Nat.succ_pos w

theorem ssizeMax_lt (hw : 0 < w) : 2 * ssizeMax w < 2 ^ w := by
  have hpow : 2 ^ w = 2 * 2 ^ (w - 1) := by
    rw [← Nat.pow_succ', Nat.succ_eq_add_one, Nat.sub_add_cancel hw]
  have hpos : 0 < 2 ^ (w - 1) := Nat.two_pow_pos _
  unfold ssizeMax
  omega

theorem toNat_count (hw : 0 < w) {c : Nat} (hc : c ≤ ssizeMax w) :
    (BitVec.ofNat w c).toNat = c := by
  have := ssizeMax_lt hw
  rw [BitVec.toNat_ofNat, Nat.mod_eq_of_lt (by omega)]

theorem toInt_count (hw : 0 < w) {c : Nat} (hc : c ≤ ssizeMax w) :
    (BitVec.ofNat w c).toInt = c := by
  have := ssizeMax_lt hw
  have hnat := toNat_count hw hc
  rw [BitVec.toInt_eq_toNat_of_lt (by omega), hnat]

theorem toInt_neg_one (hw : 0 < w) : (-1#w).toInt = -1 := by
  rw [BitVec.neg_one_eq_allOnes, BitVec.toInt_allOnes, if_pos hw]

theorem toNat_neg_one (w : Nat) : (-1#w).toNat = 2 ^ w - 1 := by
  rw [BitVec.neg_one_eq_allOnes, BitVec.toNat_allOnes]

/-- Both orders see of a count whether it is 0. -/
theorem sign_count (hw : 0 < w) {c : Nat} (hc : c ≤ ssizeMax w) (sign : Sign) :
    sign.lt (BitVec.ofNat w c) 0#w = false ∧
      sign.le (BitVec.ofNat w c) 0#w = decide (c = 0) := by
  have hnat := toNat_count hw hc
  have hint := toInt_count hw hc
  cases sign with
  | ssize =>
    refine ⟨?_, ?_⟩
    · rw [Sign.lt, BitVec.slt_eq_decide, hint, BitVec.toInt_zero]
      exact decide_eq_false (by omega)
    · rw [Sign.le, BitVec.sle_eq_decide, hint, BitVec.toInt_zero]
      exact decide_eq_decide.mpr (by omega)
  | size =>
    refine ⟨?_, ?_⟩
    · rw [Sign.lt, BitVec.ult_eq_decide, hnat]
      exact decide_eq_false (by simp)
    · rw [Sign.le, BitVec.ule_eq_decide, hnat]
      exact decide_eq_decide.mpr (by simp)

/-- The order of `ssize_t` sees that -1 is negative, that of `size_t` does not. -/
theorem sign_neg_one (hw : 0 < w) :
    Sign.lt .ssize (-1#w) 0#w = true ∧ Sign.le .ssize (-1#w) 0#w = true ∧
      Sign.lt .size (-1#w) 0#w = false ∧ Sign.le .size (-1#w) 0#w = false := by
  have hint := toInt_neg_one hw
  have hnat := toNat_neg_one w
  have hpow : 1 < 2 ^ w := Nat.one_lt_two_pow (by omega)
  refine ⟨?_, ?_, ?_, ?_⟩
  · rw [Sign.lt, BitVec.slt_eq_decide, hint, BitVec.toInt_zero]
    exact decide_eq_true (by omega)
  · rw [Sign.le, BitVec.sle_eq_decide, hint, BitVec.toInt_zero]
    exact decide_eq_true (by omega)
  · rw [Sign.lt, BitVec.ult_eq_decide]
    exact decide_eq_false (by simp)
  · rw [Sign.le, BitVec.ule_eq_decide, hnat]
    exact decide_eq_false (by simp; omega)

/-- What the two functions make of a result: a count is taken, 0 ends the loop in a way of their
own. Read as an `ssize_t`, -1 is tried again or an error; read as a `size_t` it is a count. -/
structure Tests (turn : Sign → BitVec w → Bool → Turn w) : Prop where
  count : ∀ sign c e, c ≠ 0 → c ≤ ssizeMax w →
    turn sign (BitVec.ofNat w c) e = .advance (BitVec.ofNat w c)
  zero : ∃ stop, (stop = .error ∨ stop = .eof) ∧ ∀ sign e, turn sign 0#w e = stop
  intr : turn .ssize (-1#w) true = .advance 0#w
  fail : turn .ssize (-1#w) false = .error
  wrap : ∀ e, turn .size (-1#w) e = .advance (-1#w)

theorem writen_tests (hw : 0 < w) : Tests (w := w) writenTurn := by
  obtain ⟨hslt, hsle, hult, hule⟩ := sign_neg_one hw
  refine ⟨?_, ⟨.error, .inl rfl, ?_⟩, ?_, ?_, ?_⟩
  · intro sign c e hc hmax
    obtain ⟨hlt, hle⟩ := sign_count hw hmax sign
    simp only [writenTurn, hle, hc, decide_false, if_false, Bool.false_eq_true]
  · intro sign e
    obtain ⟨hlt, hle⟩ := sign_count hw (Nat.zero_le (ssizeMax w)) sign
    simp only [writenTurn, hle, hlt, decide_true, if_true, Bool.false_and, if_false,
      Bool.false_eq_true]
  · simp only [writenTurn, hsle, hslt, if_true, Bool.and_self]
  · simp only [writenTurn, hsle, if_true, Bool.and_false, if_false, Bool.false_eq_true]
  · intro e
    simp only [writenTurn, hule, if_false, Bool.false_eq_true]

theorem readn_tests (hw : 0 < w) : Tests (w := w) readnTurn := by
  obtain ⟨hslt, hsle, hult, hule⟩ := sign_neg_one hw
  refine ⟨?_, ⟨.eof, .inr rfl, ?_⟩, ?_, ?_, ?_⟩
  · intro sign c e hc hmax
    obtain ⟨hlt, hle⟩ := sign_count hw hmax sign
    have hne : BitVec.ofNat w c ≠ 0#w := by
      intro he
      have hnat := congrArg BitVec.toNat he
      rw [toNat_count hw hmax] at hnat
      exact hc (by simpa using hnat)
    simp only [readnTurn, hlt, hne, if_false, Bool.false_eq_true]
  · intro sign e
    obtain ⟨hlt, hle⟩ := sign_count hw (Nat.zero_le (ssizeMax w)) sign
    simp only [readnTurn, hlt, if_true, if_false, Bool.false_eq_true]
  · simp only [readnTurn, hslt, if_true]
  · simp only [readnTurn, hslt, if_true, if_false, Bool.false_eq_true]
  · intro e
    have hne : -1#w ≠ 0#w := by
      intro he
      have hnat := congrArg BitVec.toNat he
      have hpow : 1 < 2 ^ w := Nat.one_lt_two_pow (by omega)
      rw [toNat_neg_one] at hnat
      simp at hnat
      omega
    simp only [readnTurn, hult, hne, if_false, Bool.false_eq_true]

/-! ## The loops -/

/-- Some call of the loop returns -1. A call that moves nothing ends the loop. -/
def Fails (nleft : BitVec w) : List Sys → Prop
  | [] => False
  | .count k :: os =>
    nleft ≠ 0#w ∧ Sys.moved nleft (.count k) ≠ 0 ∧
      Fails (nleft - BitVec.ofNat w (Sys.moved nleft (.count k))) os
  | _ :: _ => nleft ≠ 0#w

/-- The offsets and lengths handed to the kernel. -/
def Trace.pairs (t : Trace w) : List (BitVec w × BitVec w) := t.calls.map fun c => (c.off, c.len)

/-- The same value and the same calls, all of them within the `n` bytes of the buffer. -/
def Agrees (n : BitVec w) (t t' : Trace w) : Prop :=
  t.ret = t'.ret ∧ t.pairs = t'.pairs ∧ ∀ p ∈ t.pairs, p.1.toNat + p.2.toNat ≤ n.toNat

variable {turn : Sign → BitVec w → Bool → Turn w} {finish : BitVec w → BitVec w}

theorem pairs_after (c : Call w) (t : Trace w) :
    (t.after c).pairs = (c.off, c.len) :: t.pairs := rfl

theorem loop_zero (t : BitVec w → Bool → Turn w) (ptr : BitVec w) (os : List Sys) :
    loop t finish 0#w ptr os = ⟨[], some (finish 0#w), os⟩ := by
  cases os with
  | nil => simp only [loop, if_true]
  | cons o os => simp only [loop, if_true]

/-- A loop that has not ended goes on with a call for all that is left. -/
theorem loop_head (t : BitVec w → Bool → Turn w) {nleft : BitVec w} (hleft : nleft ≠ 0#w)
    (ptr : BitVec w) (os : List Sys) :
    (loop t finish nleft ptr os).pairs.head? = some (ptr, nleft) := by
  cases os with
  | nil =>
    simp only [loop, hleft, if_false]
    rfl
  | cons o os =>
    simp only [loop, hleft, if_false]
    cases t (o.result nleft) o.eintr with
    | advance x => rfl
    | error => rfl
    | eof => rfl

/-- A count that is not 0 is taken off what is left, in both loops. -/
theorem loop_count (hw : Tests turn) (sign : Sign) {nleft : BitVec w} (hleft : nleft ≠ 0#w)
    {k : Nat} (hk : Sys.moved nleft (.count k) ≠ 0) (ptr : BitVec w) (os : List Sys) :
    loop (turn sign) finish nleft ptr (.count k :: os) =
      (loop (turn sign) finish (nleft - BitVec.ofNat w (Sys.moved nleft (.count k)))
        (ptr + BitVec.ofNat w (Sys.moved nleft (.count k))) os).after
          ⟨ptr, nleft, Sys.moved nleft (.count k)⟩ := by
  have hturn := hw.count sign _ false hk (moved_le nleft (.count k)).2
  simp only [loop, hleft, if_false, Sys.result, Sys.eintr, hturn]

/-- A call that moves nothing ends both loops alike. -/
theorem loop_stop (hw : Tests turn) {nleft : BitVec w} (hleft : nleft ≠ 0#w) {k : Nat}
    (hk : Sys.moved nleft (.count k) = 0) (ptr : BitVec w) (os : List Sys) :
    loop (turn .size) finish nleft ptr (.count k :: os) =
      loop (turn .ssize) finish nleft ptr (.count k :: os) := by
  obtain ⟨stop, hends, hstop⟩ := hw.zero
  simp only [loop, hleft, if_false, Sys.result, Sys.eintr, hk, hstop]
  rcases hends with rfl | rfl
  · rfl
  · rfl

theorem sub_count {nleft : BitVec w} (hleft : nleft ≠ 0#w) (o : Sys) :
    (nleft - BitVec.ofNat w (o.moved nleft)).toNat = nleft.toNat - o.moved nleft := by
  obtain ⟨hlen, hmax⟩ := moved_le nleft o
  have hnat := toNat_count (pos_of_ne hleft) hmax
  rw [BitVec.toNat_sub_of_le (by rw [BitVec.le_def, hnat]; exact hlen), hnat]

/-- As long as no call fails the loops do the same. -/
theorem loop_eq (hw : ∀ x : BitVec w, x ≠ 0#w → Tests turn) (os : List Sys) (nleft ptr : BitVec w)
    (hno : ¬ Fails nleft os) :
    loop (turn .size) finish nleft ptr os = loop (turn .ssize) finish nleft ptr os := by
  induction os generalizing nleft ptr with
  | nil => rfl
  | cons o os ih =>
    by_cases hleft : nleft = 0#w
    · rw [hleft, loop_zero, loop_zero]
    · have htests := hw nleft hleft
      cases o with
      | intr => exact absurd hleft hno
      | fail => exact absurd hleft hno
      | count k =>
        by_cases hk : Sys.moved nleft (.count k) = 0
        · exact loop_stop htests hleft hk ptr os
        · rw [loop_count htests .size hleft hk, loop_count htests .ssize hleft hk]
          rw [ih _ _ fun hfails => hno ⟨hleft, hk, hfails⟩]

theorem sub_neg_one_ne {nleft : BitVec w} (hleft : nleft ≠ 0#w) : nleft - -1#w ≠ nleft := by
  intro he
  have hw := pos_of_ne hleft
  have hone : (1#w : BitVec w) = 0#w := by
    have hadd : nleft + 1#w = nleft + 0#w := by
      rw [BitVec.add_zero]
      simpa using he
    exact BitVec.add_right_inj nleft |>.mp hadd
  have hnat := congrArg BitVec.toNat hone
  have hpow : 1 < 2 ^ w := Nat.one_lt_two_pow (by omega)
  rw [BitVec.toNat_ofNat, Nat.mod_eq_of_lt hpow] at hnat
  simp at hnat

theorem sub_neg_one_eq_zero {nleft : BitVec w} : nleft - -1#w = 0#w ↔ nleft = -1#w := by
  rw [BitVec.sub_eq_iff_eq_add, BitVec.zero_add]

/-- Behind a call that fails the loop over a `size_t` asks for one byte more, from one place before:
by induction on the outcomes before that call. -/
theorem loop_differs (hw : ∀ x : BitVec w, x ≠ 0#w → Tests turn) (os : List Sys)
    (nleft ptr : BitVec w) (hfails : Fails nleft os)
    (hall : nleft = -1#w → os.head? ≠ some .fail) :
    (loop (turn .size) finish nleft ptr os).pairs ≠
      (loop (turn .ssize) finish nleft ptr os).pairs := by
  induction os generalizing nleft ptr with
  | nil => exact absurd hfails id
  | cons o os ih =>
    cases o with
    | intr =>
      have hleft : nleft ≠ 0#w := hfails
      have htests := hw nleft hleft
      simp only [loop, hleft, if_false, Sys.result, Sys.eintr, htests.wrap, htests.intr,
        pairs_after, BitVec.sub_zero, BitVec.add_zero]
      intro he
      have htail := congrArg List.head? (List.cons.inj he).2
      rw [loop_head _ hleft] at htail
      by_cases hend : nleft - -1#w = 0#w
      · rw [hend, loop_zero] at htail
        cases htail
      · rw [loop_head _ hend] at htail
        exact sub_neg_one_ne hleft (Prod.mk.inj (Option.some.inj htail)).2
    | fail =>
      have hleft : nleft ≠ 0#w := hfails
      have htests := hw nleft hleft
      have hmore : nleft - -1#w ≠ 0#w := fun he => hall (sub_neg_one_eq_zero.mp he) rfl
      simp only [loop, hleft, if_false, Sys.result, Sys.eintr, htests.wrap, htests.fail,
        pairs_after]
      intro he
      have htail := congrArg List.head? (List.cons.inj he).2
      rw [loop_head _ hmore] at htail
      cases htail
    | count k =>
      obtain ⟨hleft, hk, hfails⟩ := hfails
      have htests := hw nleft hleft
      rw [loop_count htests .size hleft hk, loop_count htests .ssize hleft hk, pairs_after,
        pairs_after]
      intro he
      refine ih _ _ hfails ?_ (List.cons.inj he).2
      intro hneg
      have hnat := sub_count hleft (.count k)
      rw [hneg, toNat_neg_one] at hnat
      have hlt := nleft.isLt
      have hpow : 1 < 2 ^ w := Nat.one_lt_two_pow (Nat.ne_of_gt (pos_of_ne hleft))
      omega

/-- Where all of memory is asked for, the -1 of the first call ends the loop over a `size_t` too. -/
theorem loop_whole (hw : Tests turn) (hone : -1#w ≠ 0#w) (hfinish : finish 0#w = -1#w)
    (ptr : BitVec w) (os : List Sys) :
    loop (turn .size) finish (-1#w) ptr (.fail :: os) =
      loop (turn .ssize) finish (-1#w) ptr (.fail :: os) := by
  have hend : -1#w - -1#w = 0#w := BitVec.sub_self _
  simp only [loop, hone, if_false, Sys.result, Sys.eintr, hw.wrap, hw.fail, hend, loop_zero,
    hfinish]
  rfl

/-- With the order of `ssize_t` every call is for what is left of the buffer, whatever comes out. -/
theorem loop_within (finish : BitVec w → BitVec w) (hw : ∀ x : BitVec w, x ≠ 0#w → Tests turn)
    {n : Nat} (hn : n < 2 ^ w) (os : List Sys) (nleft ptr : BitVec w)
    (hsum : ptr.toNat + nleft.toNat = n) :
    ∀ p ∈ (loop (turn .ssize) finish nleft ptr os).pairs, p.1.toNat + p.2.toNat ≤ n := by
  have hhere : ∀ p ∈ [(ptr, nleft)], p.1.toNat + p.2.toNat ≤ n := by
    intro p hp
    rw [List.mem_singleton.mp hp]
    exact Nat.le_of_eq hsum
  induction os generalizing nleft ptr with
  | nil =>
    by_cases hleft : nleft = 0#w
    · simp only [loop, hleft, if_true]
      exact fun p hp => absurd hp List.not_mem_nil
    · simp only [loop, hleft, if_false]
      exact hhere
  | cons o os ih =>
    by_cases hleft : nleft = 0#w
    · rw [hleft, loop_zero]
      exact fun p hp => absurd hp List.not_mem_nil
    · have htests := hw nleft hleft
      have hgo : ∀ nleft' ptr' : BitVec w, ptr'.toNat + nleft'.toNat = n →
          ∀ p ∈ (loop (turn .ssize) finish nleft' ptr' os).pairs, p.1.toNat + p.2.toNat ≤ n := by
        intro nleft' ptr' hsum'
        refine ih nleft' ptr' hsum' ?_
        intro p hp
        rw [List.mem_singleton.mp hp]
        exact Nat.le_of_eq hsum'
      cases o with
      | intr =>
        simp only [loop, hleft, if_false, Sys.result, Sys.eintr, htests.intr, pairs_after,
          BitVec.sub_zero, BitVec.add_zero]
        exact List.forall_mem_cons.mpr ⟨Nat.le_of_eq hsum, hgo nleft ptr hsum⟩
      | fail =>
        simp only [loop, hleft, if_false, Sys.result, Sys.eintr, htests.fail]
        exact hhere
      | count k =>
        by_cases hk : Sys.moved nleft (.count k) = 0
        · obtain ⟨stop, hends, hstop⟩ := htests.zero
          simp only [loop, hleft, if_false, Sys.result, Sys.eintr, hk, hstop]
          rcases hends with rfl | rfl
          · exact hhere
          · exact hhere
        · rw [loop_count htests .ssize hleft hk, pairs_after]
          refine List.forall_mem_cons.mpr ⟨Nat.le_of_eq hsum, hgo _ _ ?_⟩
          obtain ⟨hlen, hmax⟩ := moved_le nleft (.count k)
          have hnat := toNat_count (pos_of_ne hleft) hmax
          rw [sub_count hleft, BitVec.toNat_add_of_lt (by rw [hnat]; omega), hnat]
          omega

/-- When the two loops agree: no call fails, or all of memory is asked for and the first call fails
for good. -/
theorem loop_same_iff (hw : ∀ x : BitVec w, x ≠ 0#w → Tests turn) (n : BitVec w)
    (hfinish : finish 0#w = n) (os : List Sys) :
    Agrees n (loop (turn .size) finish n 0#w os) (loop (turn .ssize) finish n 0#w os) ↔
      ¬ Fails n os ∨ (n = -1#w ∧ os.head? = some .fail) := by
  have hwithin := loop_within finish hw n.isLt os n 0#w (by simp)
  constructor
  · rintro ⟨_, hpairs, _⟩
    by_cases hfails : Fails n os
    · by_cases hcase : n = -1#w ∧ os.head? = some .fail
      · exact .inr hcase
      · refine absurd hpairs (loop_differs hw os n 0#w hfails ?_)
        intro hn hhead
        exact hcase ⟨hn, hhead⟩
    · exact .inl hfails
  · rintro (hno | ⟨hn, hhead⟩)
    · rw [loop_eq hw os n 0#w hno]
      exact ⟨rfl, rfl, hwithin⟩
    · obtain ⟨os, rfl⟩ : ∃ os', os = .fail :: os' := by
        cases os with
        | nil => cases hhead
        | cons o os => exact ⟨os, by rw [Option.some.inj hhead]⟩
      by_cases hzero : n = 0#w
      · rw [hzero, loop_zero, loop_zero]
        exact ⟨rfl, rfl, fun p hp => absurd hp List.not_mem_nil⟩
      · subst hn
        rw [loop_whole (hw _ hzero) hzero hfinish] at *
        exact ⟨rfl, rfl, hwithin⟩

/-- For every length and all that `write` or `read` can do: the `writen` of `30chp` returns what the
one of `15chp` does and makes the same calls, all within the buffer, just when no call fails (all of
memory apart); and so its `readn` and the one of `16chp`. -/
theorem same_calls_iff (n : BitVec w) (os : List Sys) :
    (Agrees n (Chp30.writen n os) (Chp15.writen n os) ↔
      ¬ Fails n os ∨ (n = -1#w ∧ os.head? = some .fail)) ∧
    (Agrees n (Chp30.readn n os) (Chp16.readn n os) ↔
      ¬ Fails n os ∨ (n = -1#w ∧ os.head? = some .fail)) :=
  ⟨loop_same_iff (fun _ hx => writen_tests (pos_of_ne hx)) n rfl os,
    loop_same_iff (fun _ hx => readn_tests (pos_of_ne hx)) n (BitVec.sub_zero n) os⟩

end

/-- One byte to write or to read, and an interruption or an error: the loops of `30chp` go on, with
two bytes from one place before the buffer. -/
theorem calls_outside :
    ¬ Agrees 1#64 (Chp30.writen 1#64 [.fail]) (Chp15.writen 1#64 [.fail]) ∧
      ¬ Agrees 1#64 (Chp30.readn 1#64 [.intr]) (Chp16.readn 1#64 [.intr]) ∧
      (Chp30.writen 1#64 [.fail]).pairs = [(0#64, 1#64), (-1#64, 2#64)] ∧
      (Chp30.readn 1#64 [.intr]).pairs = [(0#64, 1#64), (-1#64, 2#64)] := by
  refine ⟨?_, ?_, by decide, by decide⟩
  · rintro ⟨hret, _⟩
    revert hret
    decide
  · rintro ⟨_, hpairs, _⟩
    revert hpairs
    decide

end Writen
end Unpvol1
