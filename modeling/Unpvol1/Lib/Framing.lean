import Mathlib.Data.List.Basic
import Mathlib.Data.List.Infix

/-!
# Lib.Framing

A stream that arrives in pieces, kept up to some length, and a delimiter `d` that ends its first
frame. What has been kept after each piece is a list of prefixes of the stream.

* `before d w`    — the elements of `w` before the first `d`, if there is one.
* `arrivals cap r ps` — what has been kept after each of the pieces `ps`, `r` being there already.
* `find_arrivals` — the first arrival that ends with `d` is the first frame just when some arrival
  is.
-/

namespace Unpvol1
namespace Framing

variable {α : Type}

def before [DecidableEq α] (d : List α) : List α → Option (List α)
  | [] => if d = [] then some [] else none
  | b :: w => if d <+: b :: w then some [] else (before d w).map (b :: ·)

def arrivals (cap : Nat) : List α → List (List α) → List (List α)
  | _, [] => []
  | r, p :: ps => (r ++ p).take cap :: arrivals cap ((r ++ p).take cap) ps

/-! ## The first frame -/

section
variable [DecidableEq α] {d u w n : List α}

theorem before_eq_some (h : before d w = some n) : n ++ d <+: w := by
  induction w generalizing n with
  | nil =>
    simp only [before] at h
    split at h
    · rename_i hd
      cases h
      rw [hd]
      exact List.nil_prefix
    · cases h
  | cons b w ih =>
    simp only [before] at h
    split at h
    · rename_i hd
      cases h
      exact hd
    · obtain ⟨m, hm, rfl⟩ := Option.map_eq_some_iff.mp h
      exact List.cons_prefix_cons.mpr ⟨rfl, ih hm⟩

/-- The first frame stays what it is, whatever follows. -/
theorem before_append (h : before d u = some n) (v : List α) : before d (u ++ v) = some n := by
  induction u generalizing n with
  | nil =>
    simp only [before] at h
    split at h
    · rename_i hd
      cases h
      rw [hd]
      cases v with
      | nil => rfl
      | cons b v => exact if_pos List.nil_prefix
    · cases h
  | cons b u ih =>
    simp only [before] at h
    split at h
    · rename_i hd
      cases h
      exact if_pos (hd.trans (List.prefix_append (b :: u) v))
    · rename_i hd
      obtain ⟨m, hm, rfl⟩ := Option.map_eq_some_iff.mp h
      have hlen : d.length ≤ (b :: u).length := by
        have := (before_eq_some hm).length_le
        rw [List.length_append] at this
        rw [List.length_cons]
        omega
      have hd' : ¬d <+: b :: (u ++ v) := fun hp =>
        hd (List.prefix_of_prefix_length_le hp (List.prefix_append (b :: u) v) hlen)
      rw [List.cons_append, before, if_neg hd', ih hm]
      rfl

theorem before_mono (h : before d u = some n) (hu : u <+: w) : before d w = some n := by
  obtain ⟨v, rfl⟩ := hu
  exact before_append h v

/-- What ends with the delimiter has a first frame. -/
theorem before_of_suffix (h : d <:+ u) : ∃ n, before d u = some n := by
  obtain ⟨a, rfl⟩ := h
  induction a with
  | nil =>
    cases d with
    | nil => exact ⟨[], rfl⟩
    | cons b d => exact ⟨[], if_pos (List.prefix_refl _)⟩
  | cons b a ih =>
    obtain ⟨n, hn⟩ := ih
    rw [List.cons_append, before]
    split
    · exact ⟨[], rfl⟩
    · exact ⟨b :: n, congrArg (Option.map (b :: ·)) hn⟩

/-- A prefix of the stream that ends with the delimiter reaches the end of the first frame. -/
theorem length_le_of_suffix (hw : before d w = some n) (hu : u <+: w) (hd : d <:+ u) :
    n.length + d.length ≤ u.length ∧ n ++ d <+: u := by
  obtain ⟨m, hm⟩ := before_of_suffix hd
  have hmn := before_mono hm hu
  rw [hw] at hmn
  cases hmn
  have hp := before_eq_some hm
  refine ⟨?_, hp⟩
  rw [← List.length_append]
  exact hp.length_le

end

/-! ## What has been kept -/

section
variable {cap : Nat} {u : List α}

theorem take_append_take (l q : List α) : (l.take cap ++ q).take cap = (l ++ q).take cap := by
  rw [List.take_append, List.take_append, List.take_take, Nat.min_self]
  by_cases h : l.length ≤ cap
  · rw [List.take_of_length_le h]
  · rw [List.length_take, Nat.min_eq_left (by omega), Nat.sub_self,
      Nat.sub_eq_zero_of_le (by omega)]

theorem arrivals_eq (r : List α) (ps : List (List α)) : arrivals cap r ps =
    (List.range ps.length).map fun k => (r ++ (ps.take (k + 1)).flatten).take cap := by
  induction ps generalizing r with
  | nil => rfl
  | cons p ps ih =>
    rw [arrivals, ih, List.length_cons, List.range_succ_eq_map, List.map_cons, List.map_map]
    refine congrArg₂ List.cons ?_ (List.map_congr_left fun k _ => ?_)
    · rw [List.take_succ_cons, List.take_zero, List.flatten_cons, List.flatten_nil, List.append_nil]
    · rw [take_append_take, List.append_assoc]
      rfl

theorem take_mono {u v : List α} (h : u <+: v) : u.take cap <+: v.take cap := by
  obtain ⟨t, rfl⟩ := h
  rw [List.take_append]
  exact List.prefix_append _ _

theorem flatten_mono {ps : List (List α)} {i j : Nat} (h : i ≤ j) :
    (ps.take i).flatten <+: (ps.take j).flatten := by
  obtain ⟨qs, hqs⟩ := List.take_prefix_take_left (l := ps) h
  rw [← hqs, List.flatten_append]
  exact List.prefix_append _ _

/-- Each arrival is a prefix of the stream, and of the arrivals after it. -/
theorem arrivals_initial {ps : List (List α)} (hu : u ∈ arrivals cap [] ps) :
    u <+: ps.flatten.take cap := by
  rw [arrivals_eq] at hu
  obtain ⟨k, _, rfl⟩ := List.mem_map.mp hu
  refine take_mono ?_
  obtain ⟨qs, hqs⟩ := List.take_prefix (k + 1) ps
  rw [List.nil_append, ← congrArg List.flatten hqs, List.flatten_append]
  exact List.prefix_append _ _

theorem arrivals_pairwise (ps : List (List α)) : (arrivals cap [] ps).Pairwise (· <+: ·) := by
  rw [arrivals_eq, List.pairwise_map]
  refine List.pairwise_lt_range.imp fun h => ?_
  exact take_mono (List.prefix_append_right_inj [] |>.mpr (flatten_mono (by omega)))

end

/-! ## The first arrival that ends with the delimiter -/

section
variable [DecidableEq α] {d u n : List α} {cap : Nat}

theorem find_none {ps : List (List α)} (h : before d (ps.flatten.take cap) = none) :
    ((arrivals cap [] ps).find? fun u => d <:+ u) = none := by
  refine List.find?_eq_none.mpr fun u hu hd => ?_
  obtain ⟨n, hn⟩ := before_of_suffix (of_decide_eq_true hd)
  rw [before_mono hn (arrivals_initial hu)] at h
  cases h

theorem find_arrivals {ps : List (List α)} (h : before d (ps.flatten.take cap) = some n) :
    ((arrivals cap [] ps).find? fun u => d <:+ u) = some (n ++ d) ↔
      n ++ d ∈ arrivals cap [] ps := by
  refine ⟨List.mem_of_find?_eq_some, fun hmem => ?_⟩
  obtain ⟨us, vs, hsplit, hfirst⟩ := List.eq_append_cons_of_mem hmem
  refine List.find?_eq_some_iff_append.mpr
    ⟨decide_eq_true (List.suffix_append n d), us, vs, hsplit, fun u hu => ?_⟩
  have harr : u ∈ arrivals cap [] ps := hsplit ▸ List.mem_append_left _ hu
  have hbefore : u <+: n ++ d := by
    have hpair := @arrivals_pairwise α cap ps
    rw [hsplit] at hpair
    exact (List.pairwise_append.mp hpair).2.2 u hu (n ++ d) List.mem_cons_self
  have hne : u ≠ n ++ d := fun he => hfirst (he ▸ hu)
  -- an earlier arrival is shorter than the first frame
  simp only [Bool.not_eq_true', decide_eq_false_iff_not]
  intro hd
  obtain ⟨_, hframe⟩ := length_le_of_suffix h (arrivals_initial harr) hd
  exact hne (hbefore.eq_of_length_le hframe.length_le)

/-- What is found reaches at least to the end of the first frame. -/
theorem find_frame {ps : List (List α)} (h : before d (ps.flatten.take cap) = some n)
    (hu : ((arrivals cap [] ps).find? fun u => d <:+ u) = some u) :
    u ∈ arrivals cap [] ps ∧ d <:+ u ∧ n ++ d <+: u := by
  have hmem := List.mem_of_find?_eq_some hu
  have hd : d <:+ u := by simpa using List.find?_some hu
  exact ⟨hmem, hd, (length_le_of_suffix h (arrivals_initial hmem) hd).2⟩

end
end Framing
end Unpvol1
