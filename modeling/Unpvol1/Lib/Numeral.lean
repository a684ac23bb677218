import Mathlib.Data.Nat.Digits.Lemmas
import Unpvol1.Lib.CString

/-!
# Lib.Numeral

The numerals that `atol` reads. `Numeral s v` says what the text `s` looks like when it starts,
after white space, with a numeral of value `v`: an optional sign and digits that end where no digit
follows.

* `atol_numeral`, `atol_of_no_numeral` — `atol` is the value of the numeral, saturated, or 0.
* `intOfLong_atol_iff`                 — when an `int` set to what `atol` read is `n`.
* `decimal`, `numeral_decimal`         — the text that `%d` prints, and its value.
-/

namespace Unpvol1

/-- The value of a string of digits. -/
def digitsValue (digits : List UInt8) : Nat :=
  digits.foldl (fun n b => 10 * n + (b.toNat - 48)) 0

/-- The ends of a 64-bit `long`. -/
def saturate (v : Int) : Int := max (-2 ^ 63) (min (2 ^ 63 - 1) v)

inductive Numeral : List UInt8 → Int → Prop where
  | intro (blanks sign digits rest : List UInt8) (hblanks : ∀ b ∈ blanks, isSpace b = true)
      (hsign : sign = [] ∨ sign = [43] ∨ sign = [45]) (hne : digits ≠ [])
      (hdigits : ∀ b ∈ digits, isDigit b = true) (hrest : ∀ b ∈ rest.head?, isDigit b = false) :
      Numeral (blanks ++ (sign ++ (digits ++ rest)))
        (if sign = [45] then -(digitsValue digits : Int) else digitsValue digits)

section
variable {p : UInt8 → Bool} {l r : List UInt8}

theorem dropWhile_append_stop (hl : ∀ b ∈ l, p b = true) (hr : ∀ b ∈ r.head?, p b = false) :
    (l ++ r).dropWhile p = r := by
  rw [List.dropWhile_append_of_pos hl]
  cases r with
  | nil => rfl
  | cons b r => exact List.dropWhile_cons_of_neg (by simpa using hr b rfl)

theorem takeWhile_append_stop (hl : ∀ b ∈ l, p b = true) (hr : ∀ b ∈ r.head?, p b = false) :
    (l ++ r).takeWhile p = l := by
  rw [List.takeWhile_append_of_pos hl]
  cases r with
  | nil => rw [List.takeWhile_nil, List.append_nil]
  | cons b r => rw [List.takeWhile_cons_of_neg (by simpa using hr b rfl), List.append_nil]

theorem head?_dropWhile (p : UInt8 → Bool) (l : List UInt8) :
    ∀ b ∈ (l.dropWhile p).head?, p b = false := by
  intro b hb
  have hhead := List.head?_dropWhile_not p l
  rw [hb] at hhead
  simpa using hhead

end

theorem isSpace_of_isDigit {b : UInt8} (h : isDigit b = true) : isSpace b = false := by
  simp only [isDigit, isSpace, decide_eq_true_eq, decide_eq_false_iff_not,
    UInt8.le_iff_toNat_le] at *
  intro hs
  rcases hs with rfl | hs
  · simp at h
  · have : (9 : UInt8).toNat = 9 := rfl
    have : (13 : UInt8).toNat = 13 := rfl
    have : (48 : UInt8).toNat = 48 := rfl
    omega

theorem sign_ne_digit {b : UInt8} (h : isDigit b = true) : b ≠ 45 ∧ b ≠ 43 := by
  constructor
  · rintro rfl
    cases h
  · rintro rfl
    cases h

/-! ## What `atol` does after white space -/

section
variable {s t : List UInt8}

theorem atol_minus (h : s.dropWhile isSpace = 45 :: t) :
    atol s = saturate (-(digitsValue (t.takeWhile isDigit) : Int)) := by
  unfold atol
  rw [h]
  rfl

theorem atol_plus (h : s.dropWhile isSpace = 43 :: t) :
    atol s = saturate (digitsValue (t.takeWhile isDigit)) := by
  unfold atol
  rw [h]
  rfl

theorem atol_unsigned (h : s.dropWhile isSpace = t) (hm : t.head? ≠ some 45)
    (hp : t.head? ≠ some 43) : atol s = saturate (digitsValue (t.takeWhile isDigit)) := by
  unfold atol
  simp only [h, hm, hp, or_self, if_false]
  rfl

end

theorem atol_numeral {s : List UInt8} {v : Int} (h : Numeral s v) : atol s = saturate v := by
  cases h with
  | intro blanks sign digits rest hblanks hsign hne hdigits hrest =>
    have htake : (digits ++ rest).takeWhile isDigit = digits := takeWhile_append_stop hdigits hrest
    rcases hsign with rfl | rfl | rfl
    · obtain ⟨d, ds, rfl⟩ := List.exists_cons_of_ne_nil hne
      have hd := hdigits d (by simp)
      obtain ⟨hminus, hplus⟩ := sign_ne_digit hd
      have hdrop : (blanks ++ ([] ++ (d :: ds ++ rest))).dropWhile isSpace = d :: ds ++ rest :=
        dropWhile_append_stop hblanks (by simpa using isSpace_of_isDigit hd)
      rw [atol_unsigned hdrop (by simpa using hminus) (by simpa using hplus), htake]
      rfl
    · have hdrop : (blanks ++ ([43] ++ (digits ++ rest))).dropWhile isSpace =
          43 :: (digits ++ rest) := dropWhile_append_stop hblanks (by simp [isSpace])
      rw [atol_plus hdrop, htake]
      rfl
    · have hdrop : (blanks ++ ([45] ++ (digits ++ rest))).dropWhile isSpace =
          45 :: (digits ++ rest) := dropWhile_append_stop hblanks (by simp [isSpace])
      rw [atol_minus hdrop, htake]
      rfl

/-- The text from `t` on, with the sign in front of it, is a numeral or has no digits. -/
theorem numeral_or_no_digits {s t sign : List UInt8} (hsign : sign = [] ∨ sign = [43] ∨ sign = [45])
    (h : s.dropWhile isSpace = sign ++ t) :
    (∃ v, Numeral s v) ∨ t.takeWhile isDigit = [] := by
  by_cases hne : t.takeWhile isDigit = []
  · exact .inr hne
  · have hblanks : ∀ b ∈ s.takeWhile isSpace, isSpace b = true := fun b hb =>
      List.mem_takeWhile_imp hb
    have hdigits : ∀ b ∈ t.takeWhile isDigit, isDigit b = true := fun b hb =>
      List.mem_takeWhile_imp hb
    have hnum := Numeral.intro (s.takeWhile isSpace) sign (t.takeWhile isDigit)
      (t.dropWhile isDigit) hblanks hsign hne hdigits (head?_dropWhile isDigit t)
    rw [List.takeWhile_append_dropWhile, ← h, List.takeWhile_append_dropWhile] at hnum
    exact .inl ⟨_, hnum⟩

/-- Text that does not start with a numeral reads as 0. -/
theorem atol_of_no_numeral {s : List UInt8} (h : ∀ v, ¬Numeral s v) : atol s = 0 := by
  have hno : ¬∃ v, Numeral s v := fun ⟨v, hv⟩ => h v hv
  generalize ht : s.dropWhile isSpace = t
  by_cases hm : t.head? = some 45
  · obtain ⟨u, rfl⟩ := List.head?_eq_some_iff.mp hm
    have hnil := (numeral_or_no_digits (.inr (.inr rfl)) ht).resolve_left hno
    rw [atol_minus ht, hnil]
    rfl
  · by_cases hp : t.head? = some 43
    · obtain ⟨u, rfl⟩ := List.head?_eq_some_iff.mp hp
      have hnil := (numeral_or_no_digits (.inr (.inl rfl)) ht).resolve_left hno
      rw [atol_plus ht, hnil]
      rfl
    · have hnil := (numeral_or_no_digits (.inl rfl) ht).resolve_left hno
      rw [atol_unsigned ht hm hp, hnil]
      rfl

/-! ## Numbers as `int` -/

/-- The `int` that a `long` becomes. -/
def intOfLong (v : Int) : Int := v.bmod (2 ^ 32)

/-- `s` starts with a numeral that fits in a `long` and is `n` as an `int`. -/
def Spells (s : List UInt8) (n : Int) : Prop :=
  ∃ v, Numeral s v ∧ -2 ^ 63 ≤ v ∧ v ≤ 2 ^ 63 - 1 ∧ intOfLong v = n

theorem saturate_of_fits {v : Int} (hlo : -2 ^ 63 ≤ v) (hhi : v ≤ 2 ^ 63 - 1) : saturate v = v := by
  unfold saturate
  omega

/-- A numeral that does not fit reads as one of the ends, which are no positive `int`s. -/
theorem intOfLong_saturate_le {v : Int} (h : ¬(-2 ^ 63 ≤ v ∧ v ≤ 2 ^ 63 - 1)) :
    intOfLong (saturate v) ≤ 0 := by
  have hends : saturate v = -2 ^ 63 ∨ saturate v = 2 ^ 63 - 1 := by
    unfold saturate
    omega
  rcases hends with he | he
  · rw [he]
    decide
  · rw [he]
    decide

/-- `atol` reads a positive `int` just where the text spells it. -/
theorem intOfLong_atol_iff {s : List UInt8} {n : Int} (hn : 0 < n) :
    intOfLong (atol s) = n ↔ Spells s n := by
  constructor
  · intro h
    by_cases hnum : ∃ v, Numeral s v
    · obtain ⟨v, hv⟩ := hnum
      rw [atol_numeral hv] at h
      by_cases hfits : -2 ^ 63 ≤ v ∧ v ≤ 2 ^ 63 - 1
      · rw [saturate_of_fits hfits.1 hfits.2] at h
        exact ⟨v, hv, hfits.1, hfits.2, h⟩
      · have hle := intOfLong_saturate_le hfits
        omega
    · rw [atol_of_no_numeral fun v hv => hnum ⟨v, hv⟩] at h
      have hzero : intOfLong 0 = 0 := rfl
      omega
  · rintro ⟨v, hv, hlo, hhi, hval⟩
    rw [atol_numeral hv, saturate_of_fits hlo hhi, hval]

/-! ## Decimal text -/

/-- The digits of a number, none for 0. -/
def decimal (n : Nat) : List UInt8 := (Nat.digits 10 n).reverse.map fun d => UInt8.ofNat (48 + d)

theorem toNat_digit {d : Nat} (h : d < 10) : (UInt8.ofNat (48 + d)).toNat = 48 + d := by
  rw [UInt8.toNat_ofNat']
  omega

theorem isDigit_ofNat {d : Nat} (h : d < 10) : isDigit (UInt8.ofNat (48 + d)) = true := by
  simp only [isDigit, decide_eq_true_eq, UInt8.le_iff_toNat_le, toNat_digit h]
  constructor
  · exact Nat.le_add_right 48 d
  · exact Nat.add_le_add_left (Nat.le_of_lt_succ h) 48

theorem isDigit_of_mem_decimal {n : Nat} {b : UInt8} (h : b ∈ decimal n) : isDigit b = true := by
  obtain ⟨d, hd, rfl⟩ := List.mem_map.mp h
  exact isDigit_ofNat (Nat.digits_lt_base (by decide) (List.mem_reverse.mp hd))

/-- The digits come off the end one by one. -/
theorem digitsValue_append_singleton (l : List UInt8) (b : UInt8) :
    digitsValue (l ++ [b]) = 10 * digitsValue l + (b.toNat - 48) :=
  List.foldl_append

theorem digitsValue_decimal (n : Nat) : digitsValue (decimal n) = n := by
  induction n using Nat.strong_induction_on with
  | _ n ih =>
    rcases Nat.eq_zero_or_pos n with rfl | hpos
    · rfl
    · have hlast : n % 10 < 10 := Nat.mod_lt _ (by decide)
      have hsplit : decimal n = decimal (n / 10) ++ [UInt8.ofNat (48 + n % 10)] := by
        unfold decimal
        rw [Nat.digits_def' (by decide) hpos, List.reverse_cons, List.map_append]
        rfl
      rw [hsplit, digitsValue_append_singleton, ih (n / 10) (by omega), toNat_digit hlast]
      omega

theorem decimal_ne_nil {n : Nat} (h : 0 < n) : decimal n ≠ [] := by
  intro hnil
  have hval := digitsValue_decimal n
  rw [hnil] at hval
  exact absurd hval (Nat.ne_of_lt h)

/-- Decimal text with no digit behind it is a numeral. -/
theorem numeral_decimal {n : Nat} (hn : 0 < n) {rest : List UInt8}
    (hrest : ∀ b ∈ rest.head?, isDigit b = false) : Numeral (decimal n ++ rest) n := by
  have hnum := Numeral.intro [] [] (decimal n) rest (by simp) (.inl rfl) (decimal_ne_nil hn)
    (fun _ => isDigit_of_mem_decimal) hrest
  simpa [digitsValue_decimal] using hnum

/-- What `%d` prints for a natural number. -/
def decimalText (n : Nat) : List UInt8 := if n = 0 then [48] else decimal n

def atoi (s : List UInt8) : Int := intOfLong (atol s)

theorem isDigit_of_mem_decimalText {n : Nat} {b : UInt8} (h : b ∈ decimalText n) :
    isDigit b = true := by
  unfold decimalText at h
  split at h
  · rw [List.mem_singleton.mp h]
    rfl
  · exact isDigit_of_mem_decimal h

theorem atoi_decimalText {n : Nat} (h : n < 2 ^ 31) : atoi (decimalText n) = n := by
  unfold decimalText
  split
  · rename_i hz
    rw [hz]
    rfl
  · rename_i hz
    have hend : ∀ b ∈ ([] : List UInt8).head?, isDigit b = false := fun _ h => nomatch h
    have hnum := numeral_decimal (Nat.pos_of_ne_zero hz) hend
    rw [List.append_nil] at hnum
    rw [atoi, atol_numeral hnum, saturate_of_fits (by omega) (by omega)]
    exact Int.bmod_eq_of_le (by omega) (by omega)

theorem spells_decimal {n : Nat} (hn : 0 < n) (hmax : n < 2 ^ 31) {rest : List UInt8}
    (hrest : ∀ b ∈ rest.head?, isDigit b = false) : Spells (decimal n ++ rest) n := by
  refine ⟨n, numeral_decimal hn hrest, by omega, by omega, ?_⟩
  exact Int.bmod_eq_of_le (by omega) (by omega)

end Unpvol1
