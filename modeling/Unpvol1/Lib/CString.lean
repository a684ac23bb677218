import Mathlib.Algebra.Group.Int.Defs
import Mathlib.Data.List.Basic
import Mathlib.Data.List.TakeWhile

/-!
# Lib.CString

NUL-terminated strings in a memory, and the functions of `string.h` on them. A memory is a list of
bytes, a `char*` an index into it, and the end of the memory terminates a string like a NUL.

* `cstr mem i` — the string at `i`; `cut l` is `l` up to its first NUL.
* `strpbrk`, `strspn`, `strchr` — they return an index where the C functions return a pointer.
* `strcaseeq`, `strncaseeq` — `strcasecmp( s, lit ) == 0` and
  `strncasecmp( s, lit, strlen( lit ) ) == 0`, in the C locale.
* `split_spec` — cutting the string at the first of a set of characters, in place.
* the `_append` lemmas — nothing behind a terminated string matters to these functions.
-/

namespace Unpvol1

/-! ## Strings in a memory -/

/-- `l` up to its first NUL. -/
def cut (l : List UInt8) : List UInt8 := l.takeWhile (· ≠ 0)

def cstr (mem : List UInt8) (i : Nat) : List UInt8 := cut (mem.drop i)

def strpbrk (mem : List UInt8) (i : Nat) (accept : List UInt8) : Option Nat :=
  ((cstr mem i).findIdx? fun b => b ∈ accept).map (i + ·)

def strspn (mem : List UInt8) (i : Nat) (accept : List UInt8) : Nat :=
  ((cstr mem i).takeWhile fun b => b ∈ accept).length

/-- `strchr` for a character other than NUL. -/
def strchr (mem : List UInt8) (i : Nat) (c : UInt8) : Option Nat := strpbrk mem i [c]

def toLower (b : UInt8) : UInt8 := if 65 ≤ b ∧ b ≤ 90 then b + 32 else b

def eqIgnoreCase (a b : List UInt8) : Bool := a.map toLower = b.map toLower

def strcaseeq (mem : List UInt8) (i : Nat) (lit : List UInt8) : Bool :=
  eqIgnoreCase (cstr mem i) lit

def strncaseeq (mem : List UInt8) (i : Nat) (lit : List UInt8) : Bool :=
  eqIgnoreCase ((cstr mem i).take lit.length) lit

def isSpace (b : UInt8) : Bool := b = 32 ∨ 9 ≤ b ∧ b ≤ 13

def isDigit (b : UInt8) : Bool := 48 ≤ b ∧ b ≤ 57

/-- `atol` on a string, saturating at the ends of a 64-bit `long`. -/
def atol (s : List UInt8) : Int :=
  let s := s.dropWhile isSpace
  let digits := if s.head? = some 45 ∨ s.head? = some 43 then s.drop 1 else s
  let n : Nat := (digits.takeWhile isDigit).foldl (fun n b => 10 * n + (b.toNat - 48)) 0
  max (-2 ^ 63) (min (2 ^ 63 - 1) (if s.head? = some 45 then -(n : Int) else n))

/-- `bytes` written at `i`, over what was there. -/
def overwrite (mem : List UInt8) (i : Nat) (bytes : List UInt8) : List UInt8 :=
  mem.take i ++ bytes ++ mem.drop (i + bytes.length)

/-- `strncpy( mem + i, s, n )` for a string `s`. -/
def strncpy (mem : List UInt8) (i : Nat) (s : List UInt8) (n : Nat) : List UInt8 :=
  overwrite mem i (s.take n ++ List.replicate (n - s.length) 0)

/-- There is a NUL at `i` or behind. -/
def Terminated (mem : List UInt8) (i : Nat) : Prop := 0 ∈ mem.drop i

/-! ## Cutting -/

section Cut

variable {l r : List UInt8}

theorem cut_append_nul (l r : List UInt8) : cut (l ++ 0 :: r) = cut l := by
  induction l with
  | nil => rfl
  | cons b l ih =>
    simp only [cut, List.cons_append, List.takeWhile_cons]
    split
    · exact congrArg (b :: ·) ih
    · rfl

theorem cut_of_not_mem (h : (0 : UInt8) ∉ l) : cut l = l := by
  refine List.takeWhile_eq_self_iff.mpr fun b hb => ?_
  have hne : b ≠ 0 := fun e => h (e ▸ hb)
  simpa using hne

theorem not_mem_cut (l : List UInt8) : (0 : UInt8) ∉ cut l := by
  intro h
  have := List.mem_takeWhile_imp h
  simp at this

/-- What follows the cut is nothing or starts with a NUL. -/
theorem cut_cases (l : List UInt8) : l = cut l ∨ ∃ r, l = cut l ++ 0 :: r := by
  induction l with
  | nil => exact .inl rfl
  | cons b l ih =>
    by_cases hb : b = 0
    · subst hb
      exact .inr ⟨l, rfl⟩
    · have hcut : cut (b :: l) = b :: cut l := by
        simp only [cut]
        rw [List.takeWhile_cons_of_pos (by simpa using hb)]
      rw [hcut]
      rcases ih with h | ⟨r, h⟩
      · exact .inl (congrArg (b :: ·) h)
      · exact .inr ⟨r, congrArg (b :: ·) h⟩

/-- A NUL set within the string ends it there. -/
theorem cut_set (l : List UInt8) {j : Nat} (hj : j ≤ (cut l).length) :
    cut (l.set j 0) = (cut l).take j := by
  induction l generalizing j with
  | nil => exact List.take_nil.symm
  | cons b l ih =>
    cases j with
    | zero => rfl
    | succ j =>
      simp only [cut, List.set_cons_succ, List.takeWhile_cons] at hj ⊢
      split at hj
      · rename_i hb
        rw [if_pos hb, if_pos hb, List.take_succ_cons]
        exact congrArg (b :: ·) (ih (Nat.le_of_succ_le_succ hj))
      · exact absurd hj (Nat.not_succ_le_zero j)

end Cut

/-! ## Writing -/

section Overwrite

variable {u v c : List UInt8} {i k : Nat}

theorem overwrite_append (h : u.length ≤ i) :
    overwrite (u ++ v) i c = u ++ overwrite v (i - u.length) c := by
  have hd : i + c.length - u.length = i - u.length + c.length := by omega
  simp only [overwrite, List.take_append, List.drop_append, List.take_of_length_le h,
    List.drop_of_length_le (Nat.le_trans h (Nat.le_add_right i c.length)), hd, List.nil_append,
    List.append_assoc]

theorem overwrite_set (hi : i ≤ v.length) (hk : k < i) :
    (overwrite v i c).set k 0 = overwrite (v.set k 0) i c := by
  have hlen : k < (v.take i).length := by
    rw [List.length_take]
    omega
  simp only [overwrite]
  rw [List.append_assoc, List.set_append_left _ _ hlen, ← List.take_set,
    List.drop_set_of_lt (by omega), List.append_assoc]

theorem overwrite_length (hi : i ≤ v.length) :
    (overwrite v i c).length = max v.length (i + c.length) := by
  simp only [overwrite, List.length_append, List.length_take, List.length_drop]
  omega

/-- A write within the array. -/
theorem overwrite_length_within (h : i + c.length ≤ v.length) :
    (overwrite v i c).length = v.length := by
  rw [overwrite_length (Nat.le_trans (Nat.le_add_right _ _) h), Nat.max_eq_left h]

theorem take_overwrite (hi : i ≤ v.length) :
    (overwrite v i c).take (i + c.length) = v.take i ++ c := by
  have hlen : (v.take i ++ c).length = i + c.length := by
    rw [List.length_append, List.length_take]
    omega
  exact List.take_left' hlen

/-- What is before a write stays. -/
theorem take_overwrite_of_le (hi : i ≤ v.length) (hk : k ≤ i) :
    (overwrite v i c).take k = v.take k := by
  have hlen : k ≤ (v.take i).length := by
    rw [List.length_take]
    omega
  rw [overwrite, List.append_assoc, List.take_append_of_le_length hlen, List.take_take,
    Nat.min_eq_left hk]

theorem overwrite_nil (v : List UInt8) (i : Nat) : overwrite v i [] = v := by
  simp only [overwrite, List.append_nil, List.length_nil, Nat.add_zero, List.take_append_drop]

/-- Writing on where the last write ended is one write. -/
theorem overwrite_overwrite (hi : i ≤ v.length) (c d : List UInt8) :
    overwrite (overwrite v i c) (i + c.length) d = overwrite v i (c ++ d) := by
  have hlen : (v.take i ++ c).length = i + c.length := by
    rw [List.length_append, List.length_take]
    omega
  have hsplit := overwrite_append (v := v.drop (i + c.length)) (c := d) (Nat.le_of_eq hlen)
  rw [hlen, Nat.sub_self] at hsplit
  show overwrite (v.take i ++ c ++ v.drop (i + c.length)) (i + c.length) d = _
  rw [hsplit]
  simp only [overwrite, List.take_zero, List.nil_append, List.drop_drop, List.length_append,
    List.append_assoc, Nat.zero_add, Nat.add_assoc]

end Overwrite

/-! ## Terminated strings -/

section Terminated

variable {mem : List UInt8} {i n : Nat}

theorem Terminated.lt (h : Terminated mem i) : i < mem.length := by
  by_contra hge
  have hnil : mem.drop i = [] := List.drop_eq_nil_of_le (Nat.not_lt.mp hge)
  rw [Terminated, hnil] at h
  cases h

theorem terminated_of_getElem? {k : Nat} (h : mem[k]? = some 0) (hik : i ≤ k) :
    Terminated mem i := by
  have hd : (mem.drop i)[k - i]? = some 0 := by
    rw [List.getElem?_drop, Nat.add_sub_cancel' hik]
    exact h
  exact List.mem_of_getElem? hd

theorem Terminated.append (h : Terminated mem i) (b : List UInt8) : Terminated (mem ++ b) i := by
  have hmem : (0 : UInt8) ∈ mem.drop i ++ b.drop (i - mem.length) := List.mem_append_left _ h
  rw [← List.drop_append] at hmem
  exact hmem

/-- A string that ends among the first bytes ends among more of them. -/
theorem Terminated.take_mono {j k : Nat} (h : Terminated (mem.take j) i) (hjk : j ≤ k) :
    Terminated (mem.take k) i := by
  have hsplit : mem.take k = mem.take j ++ (mem.take k).drop j := by
    have happ := List.take_append_drop j (mem.take k)
    rw [List.take_take, Nat.min_eq_left hjk] at happ
    exact happ.symm
  rw [hsplit]
  exact h.append _

theorem Terminated.split (h : Terminated mem i) :
    ∃ r, mem.drop i = cstr mem i ++ 0 :: r := by
  rcases cut_cases (mem.drop i) with hc | hc
  · rw [Terminated, hc] at h
    exact absurd h (not_mem_cut _)
  · exact hc

/-- Moving along a terminated string stays inside it. -/
theorem Terminated.add (h : Terminated mem i) (hn : n ≤ (cstr mem i).length) :
    Terminated mem (i + n) := by
  obtain ⟨r, hr⟩ := h.split
  rw [Terminated, ← List.drop_drop, hr, List.drop_append_of_le_length hn]
  exact List.mem_append_right _ List.mem_cons_self

theorem Terminated.set (h : Terminated mem i) (k : Nat) : Terminated (mem.set k 0) i := by
  obtain ⟨j, hj, hget⟩ := List.getElem_of_mem h
  rw [List.length_drop] at hj
  rw [List.getElem_drop] at hget
  have hlen : j < ((mem.set k 0).drop i).length := by
    rw [List.length_drop, List.length_set]
    exact hj
  have hz : ((mem.set k 0).drop i)[j] = 0 := by
    rw [List.getElem_drop, List.getElem_set]
    split
    · rfl
    · exact hget
  have hmem := List.getElem_mem hlen
  rw [hz] at hmem
  exact hmem

theorem cstr_set (mem : List UInt8) (i : Nat) {j : Nat} (hj : j ≤ (cstr mem i).length) :
    cstr (mem.set (i + j) 0) i = (cstr mem i).take j := by
  rw [cstr, List.drop_set, if_neg (by omega), Nat.add_sub_cancel_left]
  exact cut_set _ hj

theorem cstr_add (mem : List UInt8) (i : Nat) (hn : n ≤ (cstr mem i).length) :
    cstr mem (i + n) = (cstr mem i).drop n := by
  have hnot : (0 : UInt8) ∉ (cstr mem i).drop n := fun h =>
    not_mem_cut (mem.drop i) (List.mem_of_mem_drop h)
  have hstep : cstr mem (i + n) = cut ((mem.drop i).drop n) := by
    rw [List.drop_drop]
    rfl
  rw [hstep]
  rcases cut_cases (mem.drop i) with hc | ⟨r, hc⟩
  · rw [hc]
    exact cut_of_not_mem hnot
  · have hsplit : mem.drop i = cstr mem i ++ 0 :: r := hc
    rw [hsplit, List.drop_append_of_le_length hn, cut_append_nul]
    exact cut_of_not_mem hnot

/-! ## The first character -/

theorem cstr_eq_nil (mem : List UInt8) (i : Nat) :
    cstr mem i = [] ↔ mem.getD i 0 = 0 := by
  have hget : mem.getD i 0 = (mem.drop i).head?.getD 0 := by
    rw [List.getD_eq_getElem?_getD, List.head?_drop]
  rw [hget, cstr]
  cases mem.drop i with
  | nil => exact ⟨fun _ => rfl, fun _ => rfl⟩
  | cons b l =>
    show cut (b :: l) = [] ↔ b = 0
    rw [cut, List.takeWhile_cons]
    by_cases hb : b = 0
    · simp [hb]
    · simp [hb]

theorem cstr_head? (mem : List UInt8) (i : Nat) {c : UInt8} (hc : c ≠ 0) :
    (cstr mem i).head? = some c ↔ mem.getD i 0 = c := by
  have hget : mem.getD i 0 = (mem.drop i).head?.getD 0 := by
    rw [List.getD_eq_getElem?_getD, List.head?_drop]
  rw [hget, cstr]
  cases mem.drop i with
  | nil =>
    constructor
    · intro h
      cases h
    · intro h
      exact absurd h.symm hc
  | cons b l =>
    by_cases hb : b = 0
    · subst hb
      constructor
      · intro h
        cases h
      · intro h
        exact absurd h.symm hc
    · have hcut : (cut (b :: l)).head? = some b := by
        rw [cut, List.takeWhile_cons_of_pos (by simpa using hb)]
        rfl
      rw [hcut]
      exact Option.some_inj

end Terminated

/-! ## Cutting a string in place -/

section Split

variable {mem : List UInt8} {i : Nat} {accept : List UInt8}

/-- `l` before and after its first character in `accept`. -/
def splitAt (accept : List UInt8) : List UInt8 → Option (List UInt8 × List UInt8)
  | [] => none
  | b :: l =>
    if b ∈ accept then some ([], l)
    else (splitAt accept l).map fun p => (b :: p.1, p.2)

/-- The shape of a split. -/
theorem splitAt_eq_some {l a r : List UInt8} (h : splitAt accept l = some (a, r)) :
    ∃ b ∈ accept, l = a ++ b :: r ∧ ∀ x ∈ a, x ∉ accept := by
  induction l generalizing a with
  | nil => cases h
  | cons c l ih =>
    simp only [splitAt] at h
    split at h
    · rename_i hc
      cases h
      exact ⟨c, hc, rfl, by simp⟩
    · rename_i hc
      obtain ⟨p, hp, he⟩ := Option.map_eq_some_iff.mp h
      cases he
      obtain ⟨b, hb, hl, ha⟩ := ih hp
      exact ⟨b, hb, by rw [hl]; rfl, List.forall_mem_cons.mpr ⟨hc, ha⟩⟩

theorem splitAt_append {a r : List UInt8} {b : UInt8} (ha : ∀ x ∈ a, x ∉ accept)
    (hb : b ∈ accept) : splitAt accept (a ++ b :: r) = some (a, r) := by
  induction a with
  | nil => simp [splitAt, hb]
  | cons c a ih =>
    have hc : c ∉ accept := ha c List.mem_cons_self
    simp only [List.cons_append, splitAt, hc, if_false]
    rw [ih fun x hx => ha x (List.mem_cons_of_mem c hx)]
    rfl

theorem splitAt_eq_none {l : List UInt8} : splitAt accept l = none ↔ ∀ x ∈ l, x ∉ accept := by
  induction l with
  | nil => simp [splitAt]
  | cons c l ih =>
    simp only [splitAt]
    split
    · rename_i hc
      simp [hc]
    · rename_i hc
      simp [hc, ih]

theorem strpbrk_eq (mem : List UInt8) (i : Nat) (accept : List UInt8) :
    strpbrk mem i accept = (splitAt accept (cstr mem i)).map fun p => i + p.1.length := by
  have h : ∀ l : List UInt8, (l.findIdx? fun b => b ∈ accept) =
      (splitAt accept l).map fun p => p.1.length := by
    intro l
    induction l with
    | nil => rfl
    | cons c l ih =>
      rw [List.findIdx?_cons, splitAt]
      by_cases hc : c ∈ accept
      · simp [hc]
      · simp only [hc, decide_false, ih, if_false, Option.map_map, Bool.false_eq_true]
        rfl
  rw [strpbrk, h, Option.map_map]
  rfl

/-- Writing a NUL over the first character in `accept` leaves two strings. -/
theorem split_spec {a r : List UInt8} (h : splitAt accept (cstr mem i) = some (a, r)) :
    i + a.length < mem.length ∧ cstr (mem.set (i + a.length) 0) i = a ∧
      cstr (mem.set (i + a.length) 0) (i + a.length + 1) = r ∧
      a.length + 1 ≤ (cstr mem i).length := by
  obtain ⟨b, hb, hl, ha⟩ := splitAt_eq_some h
  have hnot := not_mem_cut (mem.drop i)
  have hcut : cut (mem.drop i) = a ++ b :: r := hl
  rw [hcut] at hnot
  -- the memory from `i` on is `a`, `b`, `r` and then nothing or a NUL
  obtain ⟨t, htail, hdrop⟩ :
      ∃ t, (t = [] ∨ ∃ t', t = 0 :: t') ∧ mem.drop i = a ++ b :: (r ++ t) := by
    rcases cut_cases (mem.drop i) with hc | ⟨t, hc⟩
    · exact ⟨[], .inl rfl, by rw [hc, hcut]; simp⟩
    · exact ⟨0 :: t, .inr ⟨t, rfl⟩, by rw [hc, hcut]; simp⟩
  have hi : i < mem.length := by
    by_contra hge
    have hnil : mem.drop i = [] := List.drop_eq_nil_of_le (Nat.not_lt.mp hge)
    rw [hdrop] at hnil
    simp at hnil
  have hlen : a.length + 1 + (r ++ t).length = mem.length - i := by
    have := congrArg List.length hdrop
    simp only [List.length_drop, List.length_append, List.length_cons] at this
    simp only [List.length_append]
    omega
  have hset : (mem.set (i + a.length) 0).drop i = a ++ 0 :: (r ++ t) := by
    rw [List.drop_set, if_neg (by omega), Nat.add_sub_cancel_left, hdrop]
    simp
  have hanul : (0 : UInt8) ∉ a := fun h0 => hnot (List.mem_append_left _ h0)
  have hrnul : (0 : UInt8) ∉ r := fun h0 =>
    hnot (List.mem_append_right _ (List.mem_cons_of_mem _ h0))
  refine ⟨by omega, ?_, ?_, ?_⟩
  · rw [cstr, hset, cut_append_nul, cut_of_not_mem hanul]
  · have hdrop2 : (mem.set (i + a.length) 0).drop (i + a.length + 1) = r ++ t := by
      have : i + a.length + 1 = i + (a.length + 1) := by omega
      rw [this, ← List.drop_drop, hset, List.drop_append, List.drop_of_length_le (by omega)]
      simp
    rw [cstr, hdrop2]
    rcases htail with rfl | ⟨t', rfl⟩
    · rw [List.append_nil, cut_of_not_mem hrnul]
    · rw [cut_append_nul, cut_of_not_mem hrnul]
  · show a.length + 1 ≤ (cut (mem.drop i)).length
    rw [hcut]
    simp

theorem drop_takeWhile_length (p : UInt8 → Bool) (l : List UInt8) :
    l.drop (l.takeWhile p).length = l.dropWhile p := by
  induction l with
  | nil => rfl
  | cons b l ih =>
    rw [List.takeWhile_cons, List.dropWhile_cons]
    split
    · exact ih
    · rfl

theorem strspn_le (mem : List UInt8) (i : Nat) (accept : List UInt8) :
    strspn mem i accept ≤ (cstr mem i).length :=
  (List.takeWhile_prefix _).length_le

theorem cstr_strspn (mem : List UInt8) (i : Nat) (accept : List UInt8) :
    cstr mem (i + strspn mem i accept) = (cstr mem i).dropWhile fun b => b ∈ accept := by
  rw [cstr_add mem i (strspn_le mem i accept), strspn]
  exact drop_takeWhile_length _ _

end Split

/-! ## What follows the terminator -/

section Append

variable {mem : List UInt8} {i : Nat}

theorem cstr_append (h : Terminated mem i) (b : List UInt8) : cstr (mem ++ b) i = cstr mem i := by
  obtain ⟨r, hr⟩ := h.split
  rw [cstr, List.drop_append_of_le_length (Nat.le_of_lt h.lt), hr, List.append_assoc,
    List.cons_append,
    cut_append_nul]
  exact cut_of_not_mem (not_mem_cut _)

theorem strpbrk_append (h : Terminated mem i) (b accept : List UInt8) :
    strpbrk (mem ++ b) i accept = strpbrk mem i accept := by
  rw [strpbrk, strpbrk, cstr_append h]

theorem strspn_append (h : Terminated mem i) (b accept : List UInt8) :
    strspn (mem ++ b) i accept = strspn mem i accept := by
  rw [strspn, strspn, cstr_append h]

theorem strcaseeq_append (h : Terminated mem i) (b lit : List UInt8) :
    strcaseeq (mem ++ b) i lit = strcaseeq mem i lit := by
  rw [strcaseeq, strcaseeq, cstr_append h]

theorem strncaseeq_append (h : Terminated mem i) (b lit : List UInt8) :
    strncaseeq (mem ++ b) i lit = strncaseeq mem i lit := by
  rw [strncaseeq, strncaseeq, cstr_append h]

end Append
end Unpvol1
