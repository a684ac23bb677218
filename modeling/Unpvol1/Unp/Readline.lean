import Unpvol1.Lib.CString
import Unpvol1.Lib.Machine
import Unpvol1.Lib.Relay

/-!
# Unp.Readline

`my_read`, `readline` and `readlinebuf` of `26chp/v2/tcpcli01.c`: lines read through a buffer that
is kept from call to call in `read_cnt`, `read_ptr` and `read_buf`.

* `Took`           — a call took some bytes off what was buffered and to be read.
* `myRead_spec`    — `my_read` takes the next byte, if there is one.
* `Longest`        — what a line is: as long a prefix as fits, with a newline at most at its end.
* `readLoop_spec`  — the loop of `readline` stores one, by induction on the room that is left.
* `readline_lines` — the lines of a sequence of calls, however the stream is cut into reads.
* `readLoop_ends`  — the result of the loop against the bytes it stored, also where a `read` fails.
-/

namespace Unpvol1
namespace Readline

def MAXLINE : Nat := 1024

/-- `'\\n'` -/
def newline : UInt8 := 10

/-- What a `read` of up to `MAXLINE` bytes can bring. -/
abbrev Chunk := { bs : List UInt8 // bs ≠ [] ∧ bs.length ≤ MAXLINE }

/-- How a `read` comes out: EINTR, another error, 0, or some bytes. -/
inductive Read where
  | intr
  | fail
  | eof
  | data (bs : Chunk)
deriving DecidableEq

/-- The static variables, with `read_ptr` as an index into `read_buf`, and what the coming `read`s
have in store; when that is used up they return 0. -/
structure Vars where
  readCnt : Int
  readPtr : Nat
  readBuf : List UInt8
  input : List Read
deriving DecidableEq

/-- What `my_read` returns, and `*ptr`. -/
inductive MyRead where
  | byte (c : UInt8)
  | eof
  | error
deriving DecidableEq

/-- `read_cnt--; *ptr = *read_ptr++; return(1);` -/
def deliver (s : Vars) : MyRead × Vars :=
  (.byte (s.readBuf.getD s.readPtr 0),
    { s with readCnt := s.readCnt - 1, readPtr := s.readPtr + 1 })

/-- From `again:` on. -/
def again (s : Vars) : List Read → MyRead × Vars
  | [] => (.eof, { s with readCnt := 0, input := [] })
  | .intr :: input => again { s with readCnt := -1 } input
  | .fail :: input => (.error, { s with readCnt := -1, input := input })
  | .eof :: input => (.eof, { s with readCnt := 0, input := input })
  | .data bs :: input => deliver
      { readCnt := bs.1.length, readPtr := 0, readBuf := overwrite s.readBuf 0 bs.1,
        input := input }

def myRead (s : Vars) : MyRead × Vars := if s.readCnt ≤ 0 then again s s.input else deliver s

/-- What `readline` leaves: its result, the memory at `vptr`, and how far `ptr` has come. -/
structure Return where
  ret : Int
  mem : List UInt8
  ptr : Nat
  vars : Vars
deriving DecidableEq

/-- The `for` loop at `n`, with `fuel` more turns before `n` is `maxlen`. -/
def readLoop : Nat → Nat → List UInt8 → Nat → Vars → Return
  | 0, n, mem, ptr, s => { ret := n, mem := overwrite mem ptr [0], ptr := ptr, vars := s }
  | fuel + 1, n, mem, ptr, s =>
    match myRead s with
    | (.byte c, s) =>
      let mem := overwrite mem ptr [c]
      if c = newline then
        { ret := n, mem := overwrite mem (ptr + 1) [0], ptr := ptr + 1, vars := s }
      else readLoop fuel (n + 1) mem (ptr + 1) s
    | (.eof, s) => { ret := n - 1, mem := overwrite mem ptr [0], ptr := ptr, vars := s }
    | (.error, s) => { ret := -1, mem := mem, ptr := ptr, vars := s }

def readline (vptr : List UInt8) (maxlen : Nat) (s : Vars) : Return :=
  readLoop (maxlen - 1) 1 vptr 0 s

/-- The result, and `*vptrptr` if that is set. -/
def readlinebuf (s : Vars) : Int × Option Nat :=
  (s.readCnt, if s.readCnt ≠ 0 then some s.readPtr else none)

/-! ## Sessions -/

/-- A call of `readline`: the caller's memory, and a `maxlen` that fits. -/
structure Call where
  vptr : List UInt8
  maxlen : Nat
  pos : 1 ≤ maxlen
  fits : maxlen ≤ vptr.length

/-- The variables, and the strings stored so far, without their NUL. -/
structure State where
  vars : Vars
  stored : List (List UInt8)
deriving DecidableEq

def Call.on (c : Call) (s : State) : Return := readline c.vptr c.maxlen s.vars

/-- What a call put before its NUL. -/
def Return.line (r : Return) : List UInt8 := r.mem.take r.ptr

def machine : Machine State Call where
  step s c := { vars := (c.on s).vars, stored := s.stored ++ [(c.on s).line] }
  ok _ _ := True

def start (input : List Read) : State where
  vars :=
    { readCnt := 0, readPtr := 0, readBuf := List.replicate MAXLINE 0, input := input }
  stored := []

/-- The bytes of the stream. -/
def bytes (input : List Read) : List UInt8 :=
  input.flatMap fun
    | .data bs => bs.1
    | _ => []

/-- Nothing but EINTR fails, and nothing comes behind the end of the stream. -/
def Fragments : List Read → Bool
  | [] => true
  | .fail :: _ => false
  | .eof :: input => bytes input = [] ∧ Fragments input
  | _ :: input => Fragments input

/-- `p` is a prefix of `l` of at most `k` bytes, with no newline before its last byte. -/
def IsLine (k : Nat) (l p : List UInt8) : Prop :=
  p <+: l ∧ p.length ≤ k ∧ newline ∉ p.dropLast

def Longest (k : Nat) (l p : List UInt8) : Prop :=
  IsLine k l p ∧ ∀ q, IsLine k l q → q.length ≤ p.length

/-- `read_ptr[0..read_cnt)` -/
def Vars.unread (s : Vars) : List UInt8 := slice s.readBuf s.readPtr (s.readPtr + s.readCnt.toNat)

/-- The bytes `readlinebuf` hands out. -/
def Vars.handed (s : Vars) : List UInt8 :=
  match readlinebuf s with
  | (cnt, some ptr) => slice s.readBuf ptr (ptr + cnt.toNat)
  | (_, none) => []

/-- The stream from the next byte on. -/
def Vars.pending (s : Vars) : List UInt8 := s.unread ++ bytes s.input

structure Inv (s : Vars) : Prop where
  size : s.readBuf.length = MAXLINE
  cnt : 0 ≤ s.readCnt
  fits : s.readPtr + s.readCnt.toNat ≤ MAXLINE
  input : Fragments s.input = true

/-- From `s` to `s'` some `read`s were made and `bs` was returned. -/
def Took (s s' : Vars) (bs : List UInt8) : Prop :=
  ∃ reads, s.input = reads ++ s'.input ∧ s.unread ++ bytes reads = bs ++ s'.unread

section
variable {s s' s'' : Vars}

/-! ## One byte -/

theorem bytes_append (xs ys : List Read) : bytes (xs ++ ys) = bytes xs ++ bytes ys :=
  List.flatMap_append

theorem unread_of_zero (h : s.readCnt = 0) : s.unread = [] := by
  rw [Vars.unread, h]
  exact slice_of_le (Nat.le_refl _)

theorem handed_eq (s : Vars) : s.handed = s.unread := by
  unfold Vars.handed readlinebuf
  by_cases h : s.readCnt = 0
  · rw [unread_of_zero h]
    simp only [h, ne_eq, not_true_eq_false, if_false]
  · simp only [h, ne_eq, not_false_eq_true, if_true]
    rfl

theorem Took.refl (s : Vars) : Took s s [] := ⟨[], rfl, by simp [bytes]⟩

theorem Took.trans {as bs : List UInt8} (h : Took s s' as) (h' : Took s' s'' bs) :
    Took s s'' (as ++ bs) := by
  obtain ⟨xs, hx, hxs⟩ := h
  obtain ⟨ys, hy, hys⟩ := h'
  refine ⟨xs ++ ys, by rw [hx, hy, List.append_assoc], ?_⟩
  rw [bytes_append, ← List.append_assoc, hxs, List.append_assoc, hys, List.append_assoc]

theorem Took.pending {bs : List UInt8} (h : Took s s' bs) : s.pending = bs ++ s'.pending := by
  obtain ⟨reads, hr, hb⟩ := h
  rw [Vars.pending, Vars.pending, hr, bytes_append, ← List.append_assoc, hb, List.append_assoc]

theorem slice_cons {buf : List UInt8} {lo hi : Nat} (h : lo < hi) (hi' : hi ≤ buf.length) :
    slice buf lo hi = buf.getD lo 0 :: slice buf (lo + 1) hi := by
  have hlt : lo < (buf.take hi).length := by
    rw [List.length_take]
    omega
  rw [slice, slice, List.drop_eq_getElem_cons hlt, List.getElem_take, List.getD_eq_getElem?_getD,
    List.getElem?_eq_getElem (Nat.lt_of_lt_of_le h hi'), Option.getD_some]

/-- The next byte of the buffer. -/
theorem deliver_unread (hsize : s.readBuf.length = MAXLINE)
    (hfits : s.readPtr + s.readCnt.toNat ≤ MAXLINE) (hpos : 0 < s.readCnt) :
    (deliver s).2.readPtr + (deliver s).2.readCnt.toNat ≤ MAXLINE ∧
      s.unread = s.readBuf.getD s.readPtr 0 :: (deliver s).2.unread := by
  have hnext : s.readPtr + 1 + (s.readCnt - 1).toNat = s.readPtr + s.readCnt.toNat := by omega
  constructor
  · show s.readPtr + 1 + (s.readCnt - 1).toNat ≤ MAXLINE
    omega
  · show s.unread = _ :: slice s.readBuf (s.readPtr + 1) (s.readPtr + 1 + (s.readCnt - 1).toNat)
    rw [hnext]
    exact slice_cons (by omega) (hsize ▸ hfits)

theorem deliver_spec (h : Inv s) (hpos : 0 < s.readCnt) : ∃ b, (deliver s).1 = .byte b ∧
    Inv (deliver s).2 ∧ (deliver s).2.input = s.input ∧ s.unread = b :: (deliver s).2.unread := by
  obtain ⟨hfits, hunread⟩ := deliver_unread h.size h.fits hpos
  refine ⟨s.readBuf.getD s.readPtr 0, rfl, ⟨h.size, ?_, hfits, h.input⟩, rfl, hunread⟩
  show 0 ≤ s.readCnt - 1
  omega

/-- The buffer after a `read` of `bs`. -/
theorem fill_length {buf : List UInt8} (hsize : buf.length = MAXLINE) (bs : Chunk) :
    (overwrite buf 0 bs.1).length = MAXLINE := by
  have hle := bs.2.2
  rw [overwrite_length_within, hsize]
  rw [hsize]
  omega

theorem fill_unread (buf : List UInt8) (bs : Chunk) :
    slice (overwrite buf 0 bs.1) 0 (0 + (bs.1.length : Int).toNat) = bs.1 := by
  rw [slice, Int.toNat_natCast, take_overwrite (Nat.zero_le _), List.take_zero, List.nil_append,
    List.drop_zero]

theorem fill_spec {input : List Read} (hsize : s.readBuf.length = MAXLINE) (bs : Chunk)
    (hinput : Fragments input = true) (s₁ : Vars) (hs₁ : s₁ =
      { readCnt := bs.1.length, readPtr := 0, readBuf := overwrite s.readBuf 0 bs.1,
        input := input }) : Inv s₁ ∧ 0 < s₁.readCnt ∧ s₁.unread = bs.1 := by
  have hle := bs.2.2
  have hpos := List.length_pos_of_ne_nil bs.2.1
  subst hs₁
  refine ⟨⟨fill_length hsize bs, Int.natCast_nonneg _, ?_, hinput⟩, Int.natCast_pos.mpr hpos,
    fill_unread s.readBuf bs⟩
  show 0 + (bs.1.length : Int).toNat ≤ MAXLINE
  omega

/-- What `again` does with an empty buffer, by induction on the `read`s: they bring a byte, or the
stream is over. -/
theorem again_spec (input : List Read) (s : Vars) (hsize : s.readBuf.length = MAXLINE)
    (hptr : s.readPtr ≤ MAXLINE) (hinput : Fragments input = true) :
    (∃ b s', again s input = (.byte b, s') ∧ Inv s' ∧
      ∃ reads, input = reads ++ s'.input ∧ bytes reads = b :: s'.unread) ∨
    (∃ s', again s input = (.eof, s') ∧ Inv s' ∧ s'.unread = [] ∧ bytes input = [] ∧
      ∃ reads, input = reads ++ s'.input ∧ bytes reads = []) := by
  induction input generalizing s with
  | nil =>
    exact .inr ⟨_, rfl, ⟨hsize, Int.le_refl 0, hptr, rfl⟩, unread_of_zero rfl, rfl, [], rfl, rfl⟩
  | cons o input ih =>
    cases o with
    | fail => cases hinput
    | eof =>
      obtain ⟨hnil, hrest⟩ := of_decide_eq_true hinput
      exact .inr ⟨_, rfl, ⟨hsize, Int.le_refl 0, hptr, hrest⟩, unread_of_zero rfl, hnil, [.eof],
        rfl, rfl⟩
    | intr =>
      have hrest : Fragments input = true := hinput
      rcases ih { s with readCnt := -1 } hsize hptr hrest with
        ⟨b, s', hs', hinv, reads, hr, hb⟩ | ⟨s', hs', hinv, hu, hnil, reads, hr, hb⟩
      · exact .inl ⟨b, s', hs', hinv, .intr :: reads, congrArg (.intr :: ·) hr, hb⟩
      · exact .inr ⟨s', hs', hinv, hu, hnil, .intr :: reads, congrArg (.intr :: ·) hr, hb⟩
    | data bs =>
      have hrest : Fragments input = true := hinput
      obtain ⟨hinv, hpos, hu⟩ := fill_spec hsize bs hrest _ rfl
      obtain ⟨b, hb, hinv', hin, hu'⟩ := deliver_spec hinv hpos
      refine .inl ⟨b, _, Prod.ext hb rfl, hinv', [.data bs], ?_, ?_⟩
      · exact congrArg (.data bs :: ·) hin.symm
      · exact (List.append_nil bs.1).trans (hu.symm.trans hu')

/-- `my_read` takes the next byte, if there is one. -/
theorem myRead_spec (h : Inv s) :
    (∃ b s', myRead s = (.byte b, s') ∧ Inv s' ∧ Took s s' [b]) ∨
      (∃ s', myRead s = (.eof, s') ∧ Inv s' ∧ Took s s' [] ∧ s.pending = []) := by
  unfold myRead
  by_cases hcnt : s.readCnt ≤ 0
  · rw [if_pos hcnt]
    have hu := unread_of_zero (Int.le_antisymm hcnt h.cnt)
    have hptr : s.readPtr ≤ MAXLINE := Nat.le_trans (Nat.le_add_right _ _) h.fits
    rcases again_spec s.input s h.size hptr h.input with
      ⟨b, s', hs', hinv, reads, hr, hb⟩ | ⟨s', hs', hinv, hu', hnil, reads, hr, hb⟩
    · exact .inl ⟨b, s', hs', hinv, reads, hr, by rw [hu, hb]; rfl⟩
    · refine .inr ⟨s', hs', hinv, ⟨reads, hr, by rw [hu, hu', hb]⟩, ?_⟩
      rw [Vars.pending, hu, hnil, List.nil_append]
  · rw [if_neg hcnt]
    obtain ⟨b, hb, hinv, hin, hu⟩ := deliver_spec h (Int.not_le.mp hcnt)
    refine .inl ⟨b, _, Prod.ext hb rfl, hinv, [], hin.symm, ?_⟩
    exact (List.append_nil _).trans hu

/-! ## One line -/

theorem longest_zero (l : List UInt8) : Longest 0 l [] := by
  refine ⟨⟨List.nil_prefix, Nat.le_refl 0, List.not_mem_nil⟩, ?_⟩
  rintro q ⟨_, hlen, _⟩
  exact hlen

theorem longest_nil (k : Nat) : Longest k [] [] := by
  refine ⟨⟨List.nil_prefix, Nat.zero_le k, List.not_mem_nil⟩, ?_⟩
  rintro q ⟨hpre, _, _⟩
  exact hpre.length_le

theorem longest_newline (k : Nat) (l : List UInt8) : Longest (k + 1) (newline :: l) [newline] := by
  refine ⟨⟨⟨l, rfl⟩, Nat.succ_le_succ (Nat.zero_le k), List.not_mem_nil⟩, ?_⟩
  rintro q ⟨hpre, _, hno⟩
  cases q with
  | nil => exact Nat.zero_le 1
  | cons b q =>
    obtain ⟨rfl, _⟩ := List.cons_prefix_cons.mp hpre
    cases q with
    | nil => exact Nat.le_refl 1
    | cons c q =>
      rw [List.dropLast_cons_cons] at hno
      exact absurd List.mem_cons_self hno

theorem Longest.cons {k : Nat} {l p : List UInt8} {b : UInt8} (h : Longest k l p)
    (hb : b ≠ newline) : Longest (k + 1) (b :: l) (b :: p) := by
  obtain ⟨⟨hpre, hlen, hno⟩, hmax⟩ := h
  refine ⟨⟨List.cons_prefix_cons.mpr ⟨rfl, hpre⟩, Nat.succ_le_succ hlen, ?_⟩, ?_⟩
  · cases p with
    | nil => exact List.not_mem_nil
    | cons c p =>
      rw [List.dropLast_cons_cons]
      exact fun hmem => (List.mem_cons.mp hmem).elim (fun he => hb he.symm) hno
  · rintro q ⟨hq, hqlen, hqno⟩
    cases q with
    | nil => exact Nat.zero_le _
    | cons c q =>
      obtain ⟨rfl, hq'⟩ := List.cons_prefix_cons.mp hq
      refine Nat.succ_le_succ (hmax q ⟨hq', Nat.le_of_succ_le_succ hqlen, ?_⟩)
      cases q with
      | nil => exact List.not_mem_nil
      | cons d q =>
        rw [List.dropLast_cons_cons] at hqno
        exact fun hmem => hqno (List.mem_cons_of_mem _ hmem)

/-- The call has stored the line `p` at `ptr`. -/
structure Stored (k ptr : Nat) (mem : List UInt8) (s : Vars) (r : Return) (p : List UInt8) :
    Prop where
  longest : Longest k s.pending p
  upto : r.ptr = ptr + p.length
  mem : r.mem = overwrite mem ptr (p ++ [0])
  took : Took s r.vars p
  inv : Inv r.vars
  ret : r.ret ≠ -1

/-- The `for` loop, by induction on the turns that are left. -/
theorem readLoop_spec (fuel : Nat) {n ptr : Nat} {mem : List UInt8} (h : Inv s) (hn : 1 ≤ n)
    (hfits : ptr + fuel < mem.length) :
    ∃ p, Stored fuel ptr mem s (readLoop fuel n mem ptr s) p := by
  induction fuel generalizing n ptr mem s with
  | zero =>
    exact ⟨[], longest_zero _, rfl, rfl, Took.refl s, h, by simp only [readLoop]; omega⟩
  | succ fuel ih =>
    unfold readLoop
    rcases myRead_spec h with ⟨b, s', hs', hinv, htook⟩ | ⟨s', hs', hinv, htook, hnil⟩
    · have hpend := htook.pending
      rw [hs']
      simp only []
      by_cases hb : b = newline
      · rw [if_pos hb]
        subst hb
        refine ⟨[newline], ?_, rfl, ?_, htook, hinv, by simp only []; omega⟩
        · rw [hpend]
          exact longest_newline fuel _
        · exact overwrite_overwrite (v := mem) (i := ptr) (by omega) [newline] [0]
      · rw [if_neg hb]
        have hlen : (overwrite mem ptr [b]).length = mem.length :=
          overwrite_length_within (by rw [List.length_singleton]; omega)
        obtain ⟨p, hp⟩ := @ih s' (n + 1) (ptr + 1) (overwrite mem ptr [b]) hinv (by omega)
          (by rw [hlen]; omega)
        refine ⟨b :: p, ?_, ?_, ?_, htook.trans hp.took, hp.inv, hp.ret⟩
        · rw [hpend]
          exact hp.longest.cons hb
        · rw [hp.upto, List.length_cons, Nat.add_assoc, Nat.add_comm 1]
        · rw [hp.mem]
          exact overwrite_overwrite (v := mem) (i := ptr) (by omega) [b] (p ++ [0])
    · rw [hs']
      refine ⟨[], ?_, rfl, rfl, htook, hinv, by simp only []; omega⟩
      rw [hnil]
      exact longest_nil _

/-! ## Sessions -/

theorem Call.stored (c : Call) {t : State} (h : Inv t.vars) :
    ∃ p, Stored (c.maxlen - 1) 0 c.vptr t.vars (c.on t) p ∧ (c.on t).line = p := by
  have hfits : 0 + (c.maxlen - 1) < c.vptr.length := by
    have hpos := c.pos
    have hle := c.fits
    omega
  obtain ⟨p, hp⟩ := readLoop_spec (c.maxlen - 1) h (Nat.le_refl 1) hfits
  refine ⟨p, hp, ?_⟩
  have hmem : (c.on t).mem = overwrite c.vptr 0 (p ++ [0]) := hp.mem
  have hupto : (c.on t).ptr = p.length := hp.upto.trans (Nat.zero_add _)
  have htake := take_overwrite (v := c.vptr) (c := p ++ [0]) (Nat.zero_le _)
  rw [Return.line, hmem, hupto]
  have hcut := congrArg (List.take p.length) htake
  rw [List.take_take, List.length_append, Nat.min_eq_left (by omega), List.take_zero,
    List.nil_append, List.take_left] at hcut
  exact hcut

/-- What was read is what the calls have returned, and what `read_ptr` points to. -/
structure Exact (input : List Read) (t : State) : Prop where
  inv : Inv t.vars
  read : ∃ reads, input = reads ++ t.vars.input ∧ bytes reads = t.stored.flatten ++ t.vars.unread

/-- Not yet returned. -/
theorem Exact.pending {input : List Read} {t : State} (h : Exact input t) :
    bytes input = t.stored.flatten ++ t.vars.pending := by
  obtain ⟨reads, hr, hb⟩ := h.read
  rw [hr, bytes_append, hb, List.append_assoc]
  rfl

theorem Exact.step {input : List Read} {t : State} (h : Exact input t) (c : Call) :
    Exact input (machine.step t c) := by
  obtain ⟨p, hp, hline⟩ := c.stored h.inv
  obtain ⟨reads, hr, hb⟩ := h.read
  obtain ⟨more, hm, hmb⟩ := hp.took
  refine ⟨hp.inv, reads ++ more, by rw [hr, hm, List.append_assoc]; rfl, ?_⟩
  show bytes (reads ++ more) = (t.stored ++ [(c.on t).line]).flatten ++ (c.on t).vars.unread
  rw [bytes_append, hb, List.append_assoc, hmb, hline, List.flatten_append, List.flatten_singleton,
    List.append_assoc]

theorem start_exact {input : List Read} (h : Fragments input = true) :
    Exact input (start input) where
  inv := ⟨List.length_replicate, Int.le_refl 0, Nat.zero_le _, h⟩
  read := ⟨[], rfl, rfl⟩

/-- The call stores the longest line of what is not yet returned that fits, and a NUL behind it. -/
def StoresLine (stream : List UInt8) (t : State) (c : Call) : Prop :=
  Longest (c.maxlen - 1) (stream.drop t.stored.flatten.length) (c.on t).line ∧
    (c.on t).mem = overwrite c.vptr 0 ((c.on t).line ++ [0]) ∧ (c.on t).ret ≠ -1

/-- What is stored is a prefix of the stream; what was read and not returned is at `read_ptr`, and
is what `readlinebuf` hands out. -/
structure InOrder (input : List Read) (t : State) : Prop where
  pre : t.stored.flatten <+: bytes input
  read : ∃ reads, input = reads ++ t.vars.input ∧
    bytes reads = t.stored.flatten ++
      slice t.vars.readBuf t.vars.readPtr (t.vars.readPtr + t.vars.readCnt.toNat)
  handed : t.vars.handed =
    slice t.vars.readBuf t.vars.readPtr (t.vars.readPtr + t.vars.readCnt.toNat)
  cnt : 0 ≤ t.vars.readCnt ∧ t.vars.readPtr + t.vars.readCnt.toNat ≤ t.vars.readBuf.length

theorem Exact.storesLine {input : List Read} {t : State} (h : Exact input t) (c : Call) :
    StoresLine (bytes input) t c := by
  obtain ⟨p, hp, hline⟩ := c.stored h.inv
  rw [StoresLine, hline, h.pending, List.drop_left]
  exact ⟨hp.longest, hp.mem, hp.ret⟩

theorem Exact.inOrder {input : List Read} {t : State} (h : Exact input t) : InOrder input t where
  pre := ⟨t.vars.pending, h.pending.symm⟩
  read := h.read
  handed := handed_eq t.vars
  cnt := ⟨h.inv.cnt, by rw [h.inv.size]; exact h.inv.fits⟩

/-- The calls of a session store the lines of the stream one after the other, whatever the reads it
comes in. -/
theorem readline_lines {input : List Read} (h : Fragments input = true) (calls : List Call) :
    machine.Each (StoresLine (bytes input)) (start input) calls ∧
      machine.Always (InOrder input) (start input) calls :=
  ⟨Machine.each_inv (I := Exact input) (fun _ c ht _ => ht.step c)
      (fun _ c ht _ => ht.storesLine c) (start_exact h)
      (Machine.valid_of_ok (fun _ _ => trivial) _ _),
    (Machine.always_inv (I := Exact input) (fun _ c ht _ => ht.step c) (start_exact h)
      (Machine.valid_of_ok (fun _ _ => trivial) _ _)).imp fun _ ht => ht.inOrder⟩

/-! ## The result, also where a `read` fails -/

/-- The bytes that come before the next `read` that returns 0 or fails. -/
def untilEnd : List Read → List UInt8
  | .data bs :: input => bs.1 ++ untilEnd input
  | .intr :: input => untilEnd input
  | _ => []

/-- The bytes `my_read` has for its caller before it returns 0 or -1. -/
def Vars.coming (s : Vars) : List UInt8 := s.unread ++ untilEnd s.input

/-- The buffer is in place; after a failure `read_cnt` is -1. -/
structure Sane (s : Vars) : Prop where
  size : s.readBuf.length = MAXLINE
  fits : s.readPtr + s.readCnt.toNat ≤ MAXLINE

theorem unread_of_nonpos (h : s.readCnt ≤ 0) : s.unread = [] := by
  rw [Vars.unread, Int.toNat_of_nonpos h]
  exact slice_of_le (Nat.le_refl _)

theorem deliver_coming (h : Sane s) (hpos : 0 < s.readCnt) {c : UInt8} {l : List UInt8}
    (hl : s.coming = c :: l) :
    (deliver s).1 = .byte c ∧ Sane (deliver s).2 ∧ (deliver s).2.coming = l := by
  obtain ⟨hfits, hunread⟩ := deliver_unread h.size h.fits hpos
  rw [Vars.coming, hunread, List.cons_append] at hl
  obtain ⟨hc, hrest⟩ := List.cons.inj hl
  exact ⟨congrArg MyRead.byte hc, ⟨h.size, hfits⟩, hrest⟩

/-- What `again` does when bytes are to come, by induction on the `read`s. -/
theorem again_coming (input : List Read) (s : Vars) (h : Sane s) {c : UInt8} {l : List UInt8}
    (hl : untilEnd input = c :: l) :
    ∃ s', again s input = (.byte c, s') ∧ Sane s' ∧ s'.coming = l := by
  induction input generalizing s with
  | nil => cases hl
  | cons o input ih =>
    cases o with
    | fail => cases hl
    | eof => cases hl
    | intr =>
      have hptr : s.readPtr + 0 ≤ MAXLINE := Nat.le_trans (Nat.le_add_right _ _) h.fits
      exact ih { s with readCnt := -1 } ⟨h.size, hptr⟩ hl
    | data bs =>
      have hle := bs.2.2
      have hpos := List.length_pos_of_ne_nil bs.2.1
      let s₁ : Vars :=
        { readCnt := bs.1.length, readPtr := 0, readBuf := overwrite s.readBuf 0 bs.1,
          input := input }
      have hsane : Sane s₁ := by
        refine ⟨fill_length h.size bs, ?_⟩
        show 0 + (bs.1.length : Int).toNat ≤ MAXLINE
        omega
      have hcoming : s₁.coming = c :: l := by
        show slice (overwrite s.readBuf 0 bs.1) 0 (0 + (bs.1.length : Int).toNat) ++ _ = _
        rw [fill_unread]
        exact hl
      obtain ⟨hb, hs', hl'⟩ := deliver_coming hsane (Int.natCast_pos.mpr hpos) hcoming
      exact ⟨(deliver s₁).2, Prod.ext hb rfl, hs', hl'⟩

theorem again_none (input : List Read) (s : Vars) (h : Sane s) (hl : untilEnd input = []) :
    ∃ s', (again s input = (.eof, s') ∨ again s input = (.error, s')) ∧ Sane s' := by
  have hptr : s.readPtr + 0 ≤ MAXLINE := Nat.le_trans (Nat.le_add_right _ _) h.fits
  induction input generalizing s with
  | nil => exact ⟨_, .inl rfl, h.size, hptr⟩
  | cons o input ih =>
    cases o with
    | fail => exact ⟨_, .inr rfl, h.size, hptr⟩
    | eof => exact ⟨_, .inl rfl, h.size, hptr⟩
    | intr => exact ih { s with readCnt := -1 } ⟨h.size, hptr⟩ hl hptr
    | data bs => exact absurd (List.append_eq_nil_iff.mp hl).1 bs.2.1

theorem myRead_coming (h : Sane s) {c : UInt8} {l : List UInt8} (hl : s.coming = c :: l) :
    ∃ s', myRead s = (.byte c, s') ∧ Sane s' ∧ s'.coming = l := by
  unfold myRead
  by_cases hcnt : s.readCnt ≤ 0
  · rw [if_pos hcnt]
    rw [Vars.coming, unread_of_nonpos hcnt, List.nil_append] at hl
    exact again_coming s.input s h hl
  · rw [if_neg hcnt]
    obtain ⟨hb, hs', hl'⟩ := deliver_coming h (Int.not_le.mp hcnt) hl
    exact ⟨(deliver s).2, Prod.ext hb rfl, hs', hl'⟩

theorem myRead_none (h : Sane s) (hl : s.coming = []) :
    ∃ s', (myRead s = (.eof, s') ∨ myRead s = (.error, s')) ∧ Sane s' := by
  obtain ⟨hunread, hnone⟩ := List.append_eq_nil_iff.mp hl
  unfold myRead
  by_cases hcnt : s.readCnt ≤ 0
  · rw [if_pos hcnt]
    exact again_none s.input s h hnone
  · have hnext := (deliver_unread h.size h.fits (Int.not_le.mp hcnt)).2
    rw [hunread] at hnext
    cases hnext

/-- The room of `k` bytes is used up before a newline comes. -/
def FillsUp (k : Nat) (l : List UInt8) : Prop := k ≤ l.length ∧ newline ∉ l.take k

/-- How the loop ends: with the room used up its result is one more than the bytes stored, else it
is their number, or -1. -/
structure Ends (k ptr : Nat) (mem : List UInt8) (l : List UInt8) (r : Return) : Prop where
  sane : Sane r.vars
  length : r.mem.length = mem.length
  room : r.ptr ≤ ptr + k
  full : FillsUp k l → r.ret = r.ptr + 1
  short : ¬ FillsUp k l → r.ret = r.ptr ∨ r.ret = -1

theorem fillsUp_cons {k : Nat} {c : UInt8} {l : List UInt8} (hc : c ≠ newline) :
    FillsUp (k + 1) (c :: l) ↔ FillsUp k l := by
  unfold FillsUp
  rw [List.take_succ_cons, List.mem_cons, List.length_cons]
  constructor
  · rintro ⟨hlen, hno⟩
    exact ⟨Nat.le_of_succ_le_succ hlen, fun hmem => hno (.inr hmem)⟩
  · rintro ⟨hlen, hno⟩
    exact ⟨Nat.succ_le_succ hlen, fun hmem => hmem.elim (fun he => hc he.symm) hno⟩

/-- The `for` loop, by induction on the turns that are left; `n` is one ahead of `ptr`. -/
theorem readLoop_ends (fuel : Nat) {ptr : Nat} {mem : List UInt8} (h : Sane s)
    (hfits : ptr + fuel < mem.length) :
    Ends fuel ptr mem s.coming (readLoop fuel (ptr + 1) mem ptr s) := by
  have hlen : ∀ c : UInt8, (overwrite mem ptr [c]).length = mem.length :=
    fun c => overwrite_length_within (by rw [List.length_singleton]; omega)
  induction fuel generalizing ptr mem s with
  | zero =>
    refine ⟨h, hlen 0, Nat.le_refl _, fun _ => rfl, ?_⟩
    intro hno
    exact absurd ⟨Nat.zero_le _, by simp⟩ hno
  | succ fuel ih =>
    unfold readLoop
    cases hl : s.coming with
    | nil =>
      have hshort : ¬ FillsUp (fuel + 1) [] := fun hfull => Nat.not_succ_le_zero fuel hfull.1
      obtain ⟨s', hs' | hs', hsane⟩ := myRead_none h hl
      · rw [hs']
        refine ⟨hsane, hlen 0, Nat.le_add_right _ _, fun hfull => absurd hfull hshort, ?_⟩
        intro _
        exact .inl (by simp)
      · rw [hs']
        refine ⟨hsane, rfl, Nat.le_add_right _ _, fun hfull => absurd hfull hshort, ?_⟩
        intro _
        exact .inr rfl
    | cons c l =>
      obtain ⟨s', hs', hsane, hcoming⟩ := myRead_coming h hl
      have hover : ∀ d : UInt8, (overwrite (overwrite mem ptr [c]) (ptr + 1) [d]).length =
          (overwrite mem ptr [c]).length :=
        fun d => overwrite_length_within (by rw [hlen, List.length_singleton]; omega)
      rw [hs']
      simp only []
      by_cases hc : c = newline
      · rw [if_pos hc]
        have hshort : ¬ FillsUp (fuel + 1) (c :: l) := by
          rintro ⟨_, hno⟩
          exact hno (by rw [List.take_succ_cons, hc]; exact List.mem_cons_self)
        refine ⟨hsane, ?_, ?_, fun hfull => absurd hfull hshort, fun _ => .inl rfl⟩
        · exact (hover 0).trans (hlen c)
        · show ptr + 1 ≤ ptr + (fuel + 1)
          omega
      · rw [if_neg hc]
        have hrec := @ih s' (ptr + 1) (overwrite mem ptr [c]) hsane (by rw [hlen]; omega) hover
        rw [hcoming] at hrec
        refine ⟨hrec.sane, hrec.length.trans (hlen c), ?_, ?_, ?_⟩
        · have := hrec.room
          omega
        · intro hfull
          exact hrec.full ((fillsUp_cons hc).mp hfull)
        · intro hshort
          exact hrec.short fun hfull => hshort ((fillsUp_cons hc).mpr hfull)

/-- A result that is not negative is the number of bytes stored before the NUL. -/
def Counts (t : State) (c : Call) : Prop :=
  0 ≤ (c.on t).ret → (c.on t).ret = ((c.on t).line.length : Int)

/-- The next bytes do not fill the room of `maxlen - 1` without a newline. -/
def RoomLeft (t : State) (c : Call) : Prop := ¬ FillsUp (c.maxlen - 1) t.vars.coming

theorem Call.ends (c : Call) {t : State} (h : Sane t.vars) :
    Ends (c.maxlen - 1) 0 c.vptr t.vars.coming (c.on t) := by
  have hpos := c.pos
  have hle := c.fits
  exact readLoop_ends (c.maxlen - 1) h (by omega)

theorem Call.counts_iff (c : Call) {t : State} (h : Sane t.vars) : Counts t c ↔ RoomLeft t c := by
  have hends := c.ends h
  have hpos := c.pos
  have hle := c.fits
  have hroom := hends.room
  have hline : (c.on t).line.length = (c.on t).ptr := by
    rw [Return.line, List.length_take, hends.length]
    omega
  unfold Counts RoomLeft
  rw [hline]
  constructor
  · intro hcounts hfull
    have hret := hends.full hfull
    have := hcounts (by omega)
    omega
  · intro hshort hnonneg
    rcases hends.short hshort with hret | hret
    · exact hret
    · omega

theorem start_sane (input : List Read) : Sane (start input).vars :=
  ⟨List.length_replicate, Nat.zero_le _⟩

/-- In a session over whatever the `read`s bring, a call returns the number of bytes it stored, or
-1, just when the bytes that come do not fill its room before a newline. -/
theorem readline_counts_iff (input : List Read) (calls : List Call) :
    machine.Each (fun t c => Counts t c ↔ RoomLeft t c) (start input) calls :=
  Machine.each_inv (I := fun t => Sane t.vars) (fun _ c ht _ => (c.ends ht).sane)
    (fun _ c ht _ => c.counts_iff ht) (start_sane input)
    (Machine.valid_of_ok (fun _ _ => trivial) _ _)

end

/-- `"ab\nc"` in two reads with an interruption between. -/
def twoReads : List Read :=
  [.data ⟨[97], by decide⟩, .intr, .data ⟨[98, 10, 99], by decide⟩, .eof]

/-- Two calls for lines of at most 7 bytes. -/
def twoCalls : List Call :=
  [⟨List.replicate 8 255, 8, by decide, by decide⟩, ⟨List.replicate 8 255, 8, by decide, by decide⟩]

theorem readline_lines_twoReads :
    machine.Each (StoresLine (bytes twoReads)) (start twoReads) twoCalls ∧
      machine.Always (InOrder twoReads) (start twoReads) twoCalls :=
  readline_lines (by decide) twoCalls

/-- Room for one byte and the NUL, and `"ab"` to come: `"a"` is stored and 2 returned. -/
theorem readline_overcounts :
    ¬ machine.Each Counts (start [.data ⟨[97, 98], by decide⟩])
      [⟨List.replicate 2 255, 2, by decide, by decide⟩] := by
  rintro ⟨hcounts, _⟩
  have hret := hcounts (by decide +kernel)
  revert hret
  decide +kernel

example : (machine.run (start twoReads) twoCalls).stored = [[97, 98, 10], [99]] := by
  decide +kernel

end Readline
end Unpvol1
