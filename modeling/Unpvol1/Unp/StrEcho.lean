import Mathlib.Data.Set.Finite.Basic
import Unpvol1.Lib.CString
import Unpvol1.Lib.Relay
import Unpvol1.Unp.Writen

/-!
# Unp.StrEcho

`str_echo` of `15chp/unixstrserv01.c`: what is read from a socket is written back to it by `writen`,
which the kernel may cut short or interrupt any number of times.

* `Goes`          — an outcome of `write` that is an interruption or moves something.
* `loop_sends`    — `writen` hands over the bytes from `ptr` on, in order, by induction on the
  outcomes; once there are as many counts as bytes it returns.
* `strEcho_sends` — what `str_echo` has written is what it has read, by induction on the reads.
-/

namespace Unpvol1
namespace StrEcho

open Writen

def MAXLINE : Nat := 1024

/-- What a `read` of up to `MAXLINE` bytes can bring. -/
abbrev Chunk := { bs : List UInt8 // bs ≠ [] ∧ bs.length ≤ MAXLINE }

/-- How a `read` comes out: EINTR, another error, 0, or some bytes. -/
inductive Read where
  | intr
  | fail
  | eof
  | data (bs : Chunk)
deriving DecidableEq

/-- Where `str_echo` is: returned, past its `exit(1)`, or waiting in `read` or `write`. -/
inductive Status where
  | returned
  | exited
  | reading
  | writing
deriving DecidableEq

/-- What the kernel has taken from the calls of a `writen`. -/
def sent {w : Nat} (buf : List UInt8) (t : Trace w) : List UInt8 :=
  t.calls.flatMap fun c => slice buf c.off.toNat (c.off.toNat + c.moved)

structure Echo where
  status : Status
  written : List UInt8
deriving DecidableEq

def Echo.after (bs : List UInt8) (e : Echo) : Echo := { e with written := bs ++ e.written }

/-- From `again:` on; the value of `writen` is not looked at. -/
def strEcho (buf : List UInt8) : List Read → List Sys → Echo
  | [], _ => ⟨.reading, []⟩
  | .intr :: reads, writes => strEcho buf reads writes
  | .fail :: _, _ => ⟨.exited, []⟩
  | .eof :: _, _ => ⟨.returned, []⟩
  | .data bs :: reads, writes =>
    let buf := overwrite buf 0 bs.1
    let t := Chp15.writen (BitVec.ofNat 64 bs.1.length) writes
    match t.ret with
    | none => ⟨.writing, sent buf t⟩
    | some _ => (strEcho buf reads t.rest).after (sent buf t)

/-- The bytes that come before the end of the stream. -/
def arrived : List Read → List UInt8
  | .data bs :: reads => bs.1 ++ arrived reads
  | .eof :: _ => []
  | _ :: reads => arrived reads
  | [] => []

/-- An interruption, or a count that is not 0. -/
def Goes : Sys → Prop
  | .intr => True
  | .fail => False
  | .count k => 0 < k

instance : DecidablePred Goes
  | .intr => inferInstanceAs (Decidable True)
  | .fail => inferInstanceAs (Decidable False)
  | .count k => inferInstanceAs (Decidable (0 < k))

/-- `write` moves something. -/
def counts (os : List Sys) : Nat := os.countP fun o => !o.eintr

section
variable {w : Nat}

/-- What a loop for the bytes from `ptr` on leaves: it has sent a first part of them, all of them
when it has returned, as it has when there were counts enough. -/
structure Sends (buf : List UInt8) (n nleft ptr : BitVec w) (os : List Sys) (t : Trace w) :
    Prop where
  part : ∃ m ≤ nleft.toNat, sent buf t = slice buf ptr.toNat (ptr.toNat + m) ∧
    (t.ret.isSome → m = nleft.toNat)
  value : t.ret.isSome → t.ret = some n
  enough : nleft.toNat ≤ counts os → t.ret.isSome
  left : counts os ≤ counts t.rest + nleft.toNat
  goes : ∀ o ∈ t.rest, Goes o

theorem sent_after (buf : List UInt8) (c : Writen.Call w) (t : Trace w) :
    sent buf (t.after c) = slice buf c.off.toNat (c.off.toNat + c.moved) ++ sent buf t :=
  List.flatMap_cons

theorem moved_pos {nleft : BitVec w} (hleft : nleft ≠ 0#w) {k : Nat} (hk : 0 < k)
    (hmax : 0 < ssizeMax w) : 0 < Sys.moved nleft (.count k) := by
  have hpos : 0 < nleft.toNat := by
    refine Nat.pos_of_ne_zero fun h => hleft ?_
    exact BitVec.eq_of_toNat_eq (by simpa using h)
  simp only [Sys.moved]
  omega

theorem counts_intr (os : List Sys) : counts (.intr :: os) = counts os := by
  simp only [counts, List.countP_cons, Sys.eintr, Bool.not_true, Bool.false_eq_true, if_false,
    Nat.add_zero]

theorem counts_count (k : Nat) (os : List Sys) : counts (.count k :: os) = counts os + 1 := by
  simp only [counts, List.countP_cons, Sys.eintr, Bool.not_false, if_true]

theorem sends_zero (buf : List UInt8) (n ptr : BitVec w) (os : List Sys)
    (hos : ∀ o ∈ os, Goes o) : Sends buf n 0#w ptr os ⟨[], some n, os⟩ where
  part := ⟨0, Nat.zero_le _, (slice_of_le (Nat.le_refl _)).symm, fun _ => by simp⟩
  value _ := rfl
  enough _ := rfl
  left := Nat.le_add_right _ _
  goes := hos

/-- One call that moves `c` bytes, and what the rest of the loop does. -/
theorem Sends.after {buf : List UInt8} {n nleft ptr : BitVec w} {o : Sys} {os : List Sys}
    {t : Trace w} {c : Nat} (hc : c ≤ nleft.toNat) (hcounts : counts (o :: os) ≤ counts os + c)
    {nleft' ptr' : BitVec w} (hleft' : nleft'.toNat = nleft.toNat - c)
    (hptr' : ptr'.toNat = ptr.toNat + c) (h : Sends buf n nleft' ptr' os t) :
    Sends buf n nleft ptr (o :: os) (t.after ⟨ptr, nleft, c⟩) := by
  obtain ⟨m, hm, hsent, hall⟩ := h.part
  have hleft := h.left
  refine ⟨⟨c + m, by omega, ?_, ?_⟩, h.value, ?_, ?_, h.goes⟩
  · rw [sent_after, hsent, hptr']
    show slice buf ptr.toNat (ptr.toNat + c) ++ _ = _
    rw [slice_append buf (by omega) (by omega), Nat.add_assoc]
  · intro hret
    have := hall hret
    omega
  · intro henough
    exact h.enough (by omega)
  · show counts (o :: os) ≤ counts t.rest + nleft.toNat
    omega

/-- The loop of `writen`, by induction on the outcomes. -/
theorem loop_sends (hmax : 0 < ssizeMax w) (buf : List UInt8) (n : BitVec w) (os : List Sys)
    (hos : ∀ o ∈ os, Goes o) (nleft ptr : BitVec w) (hsum : ptr.toNat + nleft.toNat = n.toNat) :
    Sends buf n nleft ptr os (loop (writenTurn .ssize) (fun _ => n) nleft ptr os) := by
  induction os generalizing nleft ptr with
  | nil =>
    by_cases hleft : nleft = 0#w
    · rw [hleft, loop_zero]
      exact sends_zero buf n ptr [] hos
    · simp only [loop, hleft, if_false]
      have hpos := moved_pos hleft Nat.one_pos hmax
      have hlen := (moved_le nleft (.count 1)).1
      refine ⟨⟨0, Nat.zero_le _, ?_, ?_⟩, ?_, ?_, Nat.zero_le _, hos⟩
      · have hnone : slice buf ptr.toNat (ptr.toNat + 0) = [] := slice_of_le (Nat.le_refl _)
        simp only [sent, List.flatMap_cons, List.flatMap_nil, hnone, List.append_nil]
      · intro hret
        cases hret
      · intro hret
        cases hret
      · intro henough
        have : nleft.toNat ≤ 0 := henough
        omega
  | cons o os ih =>
    have hrest : ∀ o ∈ os, Goes o := fun o ho => hos o (List.mem_cons_of_mem _ ho)
    have hgoes := hos o List.mem_cons_self
    by_cases hleft : nleft = 0#w
    · rw [hleft, loop_zero]
      exact sends_zero buf n ptr (o :: os) hos
    · have htests := writen_tests (pos_of_ne hleft)
      cases o with
      | fail => exact absurd hgoes id
      | intr =>
        have hturn : loop (writenTurn .ssize) (fun _ => n) nleft ptr (.intr :: os) =
            (loop (writenTurn .ssize) (fun _ => n) nleft ptr os).after ⟨ptr, nleft, 0⟩ := by
          simp only [loop, hleft, if_false, Sys.result, Sys.eintr, htests.intr, BitVec.sub_zero,
            BitVec.add_zero, Sys.moved]
        rw [hturn]
        have hsame := counts_intr os
        exact Sends.after (Nat.zero_le _) (Nat.le_of_eq hsame) rfl rfl (ih hrest nleft ptr hsum)
      | count k =>
        have hpos := moved_pos hleft hgoes hmax
        obtain ⟨hlen, hmax'⟩ := moved_le nleft (.count k)
        have hnat := toNat_count (pos_of_ne hleft) hmax'
        have hadd : (ptr + BitVec.ofNat w (Sys.moved nleft (.count k))).toNat =
            ptr.toNat + Sys.moved nleft (.count k) := by
          have hlt := n.isLt
          rw [BitVec.toNat_add_of_lt (by rw [hnat]; omega), hnat]
        have hsub := sub_count hleft (.count k)
        have hone := counts_count k os
        rw [loop_count htests .ssize hleft (Nat.ne_of_gt hpos)]
        exact Sends.after hlen (by omega) hsub hadd (ih hrest _ _ (by omega))

theorem writen_sends (buf : List UInt8) (n : BitVec 64) (os : List Sys)
    (hos : ∀ o ∈ os, Goes o) : Sends buf n n 0#64 os (Chp15.writen n os) :=
  loop_sends (by decide) buf n os hos n 0#64 (by simp)

/-- What one turn of `str_echo` sends of the bytes it has read. -/
theorem writen_chunk (buf : List UInt8) (bs : Chunk) (os : List Sys) (hos : ∀ o ∈ os, Goes o)
    (t : Trace 64) (ht : t = Chp15.writen (BitVec.ofNat 64 bs.1.length) os) :
    (t.ret.isSome → sent (overwrite buf 0 bs.1) t = bs.1) ∧
      (bs.1.length ≤ counts os → t.ret.isSome) ∧
      counts os ≤ counts t.rest + bs.1.length ∧ ∀ o ∈ t.rest, Goes o := by
  have hlen := bs.2.2
  have hnat : (BitVec.ofNat 64 bs.1.length).toNat = bs.1.length :=
    toNat_count (by decide) (Nat.le_trans hlen (by decide))
  have hsends := writen_sends (overwrite buf 0 bs.1) (BitVec.ofNat 64 bs.1.length) os hos
  rw [← ht] at hsends
  obtain ⟨m, _, hsent, hall⟩ := hsends.part
  have henough := hsends.enough
  have hleft := hsends.left
  rw [hnat] at hall henough hleft
  refine ⟨?_, henough, hleft, hsends.goes⟩
  intro hret
  rw [hsent, hall hret, slice]
  have htake := take_overwrite (v := buf) (c := bs.1) (Nat.zero_le _)
  simpa using htake

/-- By induction on the reads. -/
theorem strEcho_written (reads : List Read) (hreads : .fail ∉ reads) (buf : List UInt8)
    (writes : List Sys) (hwrites : ∀ o ∈ writes, Goes o)
    (hret : (strEcho buf reads writes).status = .returned) :
    (strEcho buf reads writes).written = arrived reads := by
  induction reads generalizing buf writes with
  | nil => cases hret
  | cons r reads ih =>
    have hrest : .fail ∉ reads := fun h => hreads (List.mem_cons_of_mem _ h)
    cases r with
    | intr => exact ih hrest buf writes hwrites hret
    | fail => exact absurd List.mem_cons_self hreads
    | eof => rfl
    | data bs =>
      obtain ⟨hsent, _, _, hgoes⟩ := writen_chunk buf bs writes hwrites _ rfl
      unfold strEcho at hret ⊢
      dsimp only at hret ⊢
      cases hval : (Chp15.writen (BitVec.ofNat 64 bs.1.length) writes).ret with
      | none =>
        rw [hval] at hret
        cases hret
      | some v =>
        rw [hval] at hret
        have hrec := ih hrest (overwrite buf 0 bs.1) _ hgoes hret
        show sent _ _ ++ _ = bs.1 ++ arrived reads
        rw [hrec, hsent (by rw [hval]; rfl)]

/-- With the end of the stream to come and counts enough for its bytes, `str_echo` returns. -/
theorem strEcho_returns (reads : List Read) (hreads : .fail ∉ reads) (hend : .eof ∈ reads)
    (buf : List UInt8) (writes : List Sys) (hwrites : ∀ o ∈ writes, Goes o)
    (henough : (arrived reads).length ≤ counts writes) :
    (strEcho buf reads writes).status = .returned := by
  induction reads generalizing buf writes with
  | nil => cases hend
  | cons r reads ih =>
    have hrest : .fail ∉ reads := fun h => hreads (List.mem_cons_of_mem _ h)
    cases r with
    | fail => exact absurd List.mem_cons_self hreads
    | eof => rfl
    | intr =>
      have hend : .eof ∈ reads := by simpa using hend
      exact ih hrest hend buf writes hwrites henough
    | data bs =>
      have hend : .eof ∈ reads := by simpa using hend
      obtain ⟨_, hdone, hleft, hgoes⟩ := writen_chunk buf bs writes hwrites _ rfl
      have hlen : bs.1.length + (arrived reads).length ≤ counts writes := by
        simpa [arrived] using henough
      obtain ⟨v, hval⟩ := Option.isSome_iff_exists.mp (hdone (by omega))
      unfold strEcho
      dsimp only
      rw [hval]
      exact ih hrest hend (overwrite buf 0 bs.1) _ hgoes (by omega)

theorem counts_range (f : Nat → Sys) (m : Nat) :
    m ≤ counts ((List.range m).map f) + ((List.range m).map f).count .intr := by
  induction m with
  | zero => exact Nat.zero_le _
  | succ m ih =>
    have hone : 1 ≤ counts [f m] + [f m].count .intr := by
      cases f m with
      | intr => exact Nat.le_refl 1
      | fail => exact Nat.le_refl 1
      | count k => exact Nat.le_refl 1
    rw [List.range_succ, List.map_append, counts, List.countP_append, List.count_append]
    simp only [counts] at ih hone
    simp only [List.map_cons, List.map_nil]
    omega

theorem count_intr_le (f : Nat → Sys) (hfin : {i | f i = .intr}.Finite) (m : Nat) :
    ((List.range m).map f).count .intr ≤ hfin.toFinset.card := by
  have hnodup : ((List.range m).filter fun i => f i == .intr).Nodup := List.nodup_range.filter _
  have hcount : ((List.range m).map f).count .intr =
      ((List.range m).filter fun i => f i == .intr).toFinset.card := by
    rw [List.count, List.countP_map, List.countP_eq_length_filter,
      List.toFinset_card_of_nodup hnodup]
    rfl
  rw [hcount]
  refine Finset.card_le_card fun i hi => ?_
  rw [List.mem_toFinset, List.mem_filter] at hi
  rw [Set.Finite.mem_toFinset]
  exact eq_of_beq hi.2

/-- With finitely many interruptions there are counts enough some time. -/
theorem counts_grow (f : Nat → Sys) (hfin : {i | f i = .intr}.Finite) (n : Nat) :
    ∃ M, ∀ m, M ≤ m → n ≤ counts ((List.range m).map f) := by
  refine ⟨n + hfin.toFinset.card, fun m hm => ?_⟩
  have hrange := counts_range f m
  have hintr := count_intr_le f hfin m
  omega

/-- What `str_echo` has written when it returns is what it has read; and a `writen` whose calls are
interrupted only finitely often returns. -/
theorem strEcho_sends (buf : List UInt8) (reads : List Read) (hreads : .fail ∉ reads)
    (writes : List Sys) (hwrites : ∀ o ∈ writes, Goes o) :
    ((strEcho buf reads writes).status = .returned →
      (strEcho buf reads writes).written = arrived reads) ∧
    ∀ (n : BitVec 64) (f : Nat → Sys), (∀ i, Goes (f i)) → {i | f i = .intr}.Finite →
      ∃ M, ∀ m, M ≤ m → (Chp15.writen n ((List.range m).map f)).ret = some n := by
  refine ⟨strEcho_written reads hreads buf writes hwrites, ?_⟩
  intro n f hgoes hfin
  obtain ⟨M, hM⟩ := counts_grow f hfin n.toNat
  refine ⟨M, fun m hm => ?_⟩
  have hos : ∀ o ∈ (List.range m).map f, Goes o := by
    intro o ho
    obtain ⟨i, _, rfl⟩ := List.mem_map.mp ho
    exact hgoes i
  have hsends := writen_sends buf n ((List.range m).map f) hos
  exact hsends.value (hsends.enough (hM m hm))

/-- Three bytes in two reads with an interruption between, written one and two at a time with
another; and a `writen` interrupted twice. -/
theorem strEcho_sends_interrupted :
    (strEcho [] [.data ⟨[97, 98], by decide⟩, .intr, .data ⟨[99], by decide⟩, .eof]
        [.count 1, .intr, .count 5, .count 1]).written = [97, 98, 99] ∧
      ∃ M, ∀ m, M ≤ m → (Chp15.writen 3#64
        ((List.range m).map fun i => if i < 2 then .intr else .count 1)).ret = some 3#64 := by
  have h := strEcho_sends []
    [.data ⟨[97, 98], by decide⟩, .intr, .data ⟨[99], by decide⟩, .eof] (by decide)
    [.count 1, .intr, .count 5, .count 1] (by decide)
  refine ⟨h.1 (by decide), h.2 3#64 _ ?_ ?_⟩
  · intro i
    split
    · exact trivial
    · exact Nat.one_pos
  · refine (Set.finite_lt_nat 2).subset fun i hi => ?_
    by_cases hlt : i < 2
    · exact hlt
    · have hi : (if i < 2 then Sys.intr else .count 1) = .intr := hi
      rw [if_neg hlt] at hi
      cases hi

end

end StrEcho
end Unpvol1
