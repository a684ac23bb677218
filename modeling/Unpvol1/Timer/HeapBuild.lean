import Unpvol1.Timer.HeapAccess

/-!
# Timer.HeapBuild

The constructor of `time_heap` that takes an array of timers and puts them in heap order.

* `percolateDown_eq` — one `percolate_down` is one `siftDown`, wherever it starts.
* `percolateAll_eq`  — the loop over the places that have a child is `heapify`.
* `build_heap`       — the same timers, in heap order; `build_state` — a heap for `HeapRuns`;
  `build_heap_tooMany` — not so with more than 2^30 timers.
-/

namespace Unpvol1
namespace TimerHeap
namespace Checked

open BinHeap Slots

section
variable {κ υ : Type}

theorem live_of_perm {mem : Nat → Option (HeapTimer κ υ)} {v w : Nat → Ptr} {n : Nat}
    (hperm : (contents w n).Perm (contents v n)) (hl : ∀ i < n, Live mem (v i)) :
    ∀ i < n, Live mem (w i) := by
  intro i hi
  have hmem := hperm.mem_iff.mp (mem_contents.mpr ⟨i, hi, rfl⟩)
  obtain ⟨j, hj, e⟩ := mem_contents.mp hmem
  rw [← e]
  exact hl j hj

theorem percolateDown_eq {h : TimeHeap κ υ} {hole : Nat} (hsize : h.curSize ≤ h.capacity)
    (hfew : h.curSize ≤ 2 ^ 30) (hl : ∀ i < h.curSize, Live h.mem (h.array i))
    (hhole : hole < h.curSize) :
    percolateDown (ofNat h) hole =
      pure (ofNat { h with array := siftDown (expireOf h.mem) h.array h.curSize hole }) := by
  have hcap : hole < h.capacity := Nat.lt_of_lt_of_le hhole hsize
  have hloop := percolateLoop_eq hcap hsize (fun _ => hl hole hhole) fun i hi _ => hl i hi
  rw [Function.update_eq_self] at hloop
  have hget : TimerHeap.get h hole = some (h.array hole) := if_pos hcap
  refine (percolateDown_mirrors h hole hfew (by omega)).eq_pure ?_
  simp only [TimerHeap.percolateDown, hget, Option.bind_eq_bind, Option.bind_some]
  exact hloop

/-- By induction on the place the loop starts at. -/
theorem percolateAll_eq (i : Nat) {h : TimeHeap κ υ} (hsize : h.curSize ≤ h.capacity)
    (hfew : h.curSize ≤ 2 ^ 30) (hl : ∀ i < h.curSize, Live h.mem (h.array i))
    (hi : i ≤ h.curSize) :
    percolateAll i (ofNat h) =
      pure (ofNat { h with array := heapify (expireOf h.mem) h.curSize i h.array }) := by
  induction i generalizing h with
  | zero => rfl
  | succ i ih =>
    have hperm := siftDown_perm (f := expireOf h.mem) h.array h.curSize (i := i)
    simp only [percolateAll, percolateDown_eq hsize hfew hl hi, pure_bind]
    exact ih (h := { h with array := siftDown (expireOf h.mem) h.array h.curSize i }) hsize hfew
      (live_of_perm hperm hl) (Nat.le_of_succ_le hi)

/-- The constructor's copy of the timers. -/
def copied (initArray : Nat → Ptr) (size : Nat) (i : Nat) : Ptr :=
  if i < size then initArray i else none

/-- `cur_size` and the copying loop, before `percolate_down` is called. -/
theorem copyLoop_copied (initArray : Nat → Ptr) {size capacity : Nat}
    (mem : Nat → Option (HeapTimer κ υ)) (hcap : size ≤ capacity) :
    copyLoop (fun i => pure (initArray i)) (size : Int).toNat 0
        ({ init capacity mem with curSize := size } : IntHeap κ υ) =
      pure (ofNat ⟨copied initArray size, capacity, size, mem⟩) := by
  rw [Int.toNat_natCast, copyLoop_eq _ initArray size 0 _ (fun _ _ _ => rfl)
    (by show ((0 + size : Nat) : Int) ≤ (capacity : Int); omega)]
  simp only [Nat.zero_le, true_and, Nat.zero_add, init, ofNat]
  rfl

theorem build_eq {initArray : Nat → Ptr} {size capacity : Nat}
    {mem : Nat → Option (HeapTimer κ υ)} (hcap : size ≤ capacity) (hfew : size ≤ 2 ^ 30)
    (hl : ∀ i < size, Live mem (initArray i)) :
    build initArray size capacity mem =
      pure (ofNat ⟨heapify (expireOf mem) size (if size = 0 then 0 else (size - 1) / 2 + 1)
        (copied initArray size), capacity, size, mem⟩) := by
  unfold build
  by_cases hempty : size = 0
  · subst hempty
    rfl
  · have hne : (size : Int) ≠ 0 := by omega
    have hint : int ((size : Int) - 1) = pure ((size : Int) - 1) :=
      int_eq (by simp only [intMin]; omega) (by simp only [intMax]; omega)
    have hlast : (((size : Int) - 1).tdiv 2 + 1).toNat = (size - 1) / 2 + 1 := by
      rw [Int.tdiv_eq_ediv_of_nonneg (by omega)]
      omega
    simp only [hempty, hne, ne_eq, not_false_eq_true, if_true, if_false,
      copyLoop_copied initArray mem hcap, pure_bind, ofNat_curSize, hint, hlast]
    refine percolateAll_eq ((size - 1) / 2 + 1)
      (h := ⟨copied initArray size, capacity, size, mem⟩) hcap hfew ?_ ?_
    · intro i hi
      have hi : i < size := hi
      show Live mem (copied initArray size i)
      rw [copied, if_pos hi]
      exact hl i hi
    · show (size - 1) / 2 + 1 ≤ size
      omega

theorem heapify_leaves (f : Ptr → Int) (size : Nat) (v : Nat → Ptr) :
    Ordered f (heapify f size (if size = 0 then 0 else (size - 1) / 2 + 1) v) size := by
  by_cases hempty : size = 0
  · intro k _ hk
    omega
  · rw [if_neg hempty]
    exact heapify_ordered (orderedFrom_leaves v size)

theorem heapify_copied_perm (f : Ptr → Int) (initArray : Nat → Ptr) (size i : Nat) :
    (contents (heapify f size i (copied initArray size)) size).Perm (contents initArray size) := by
  have hcopied : contents (copied initArray size) size = contents initArray size :=
    contents_congr fun i hi => if_pos hi
  have hperm := heapify_perm (f := f) size i (copied initArray size)
  rwa [hcopied] at hperm

theorem expireAt_live {h : TimeHeap κ υ} {i : Nat} (hi : i < h.capacity)
    (hl : Live h.mem (h.array i)) :
    expireAt (ofNat h) i = pure (expireOf h.mem (h.array i)) :=
  (expireAt_mirrors h i).eq_pure (expireAt_eq hi hl)

/-- The operations of `HeapRuns` can start from what the array constructor makes. -/
theorem build_state {initArray : Nat → Ptr} {size capacity : Nat}
    {mem : Nat → Option (HeapTimer κ υ)} (hpos : 1 ≤ capacity) (hcap : size ≤ capacity)
    (hfew : size ≤ 2 ^ 30) (hl : ∀ i < size, Live mem (initArray i)) :
    ∃ h, build initArray size capacity mem = pure (ofNat h) ∧ HeapState h := by
  refine ⟨_, build_eq hcap hfew hl, hpos, hcap, ?_, heapify_leaves (expireOf mem) size _⟩
  exact live_of_perm (heapify_copied_perm (expireOf mem) initArray size _) hl

/-- The array constructor makes a heap of the timers it is given, if they are 2^30 at most: they are
all in the first `size` places of its array, and none is due before its parent. -/
theorem build_heap (initArray : Nat → Ptr) (size capacity : Nat)
    (mem : Nat → Option (HeapTimer κ υ)) (hcap : size ≤ capacity) (hfew : size ≤ 2 ^ 30)
    (hl : ∀ i < size, Live mem (initArray i)) :
    ∃ h, build initArray size capacity mem = pure h ∧ h.curSize = size ∧ h.capacity = capacity ∧
      h.mem = mem ∧ (contents h.array size).Perm (contents initArray size) ∧
      ∀ i : Nat, 0 < i → i < size → ∃ e e', expireAt h ((i - 1) / 2 : Nat) = pure e ∧
        expireAt h i = pure e' ∧ e ≤ e' := by
  have hperm := heapify_copied_perm (expireOf mem) initArray size
    (if size = 0 then 0 else (size - 1) / 2 + 1)
  have hlive := live_of_perm hperm hl
  refine ⟨_, build_eq hcap hfew hl, rfl, rfl, rfl, hperm, ?_⟩
  intro i hi0 hi
  have hp : parent i < size := Nat.lt_trans (parent_lt (Nat.ne_of_gt hi0)) hi
  refine ⟨_, _, expireAt_live ?_ (hlive _ hp), expireAt_live ?_ (hlive i hi),
    heapify_leaves (expireOf mem) size _ i hi0 hi⟩
  · exact Nat.lt_of_lt_of_le hp hcap
  · exact Nat.lt_of_lt_of_le hi hcap

/-- Four timers, the last to be made the first due, in an array with room for five. -/
theorem build_heap_four :
    ∃ h, build (fun i => some i) 4 5 (fun a => some (⟨10 - a, none, ()⟩ : HeapTimer Unit Unit)) =
        pure h ∧ h.curSize = 4 ∧ h.capacity = 5 ∧
      h.mem = (fun a => some ⟨10 - a, none, ()⟩) ∧
      (contents h.array 4).Perm (contents (fun i => some i) 4) ∧
      ∀ i : Nat, 0 < i → i < 4 → ∃ e e', expireAt h ((i - 1) / 2 : Nat) = pure e ∧
        expireAt h i = pure e' ∧ e ≤ e' :=
  build_heap (fun i => some i) 4 5 (fun a => some ⟨10 - a, none, ()⟩) (by omega) (by omega)
    fun i _ => ⟨i, _, rfl, rfl⟩

/-- A place without children. -/
theorem percolateLoop_leaf {h : IntHeap κ υ} {hole : Int} (temp : Ptr) (h0 : 0 ≤ hole)
    (hleaf : h.curSize ≤ hole * 2 + 1) (hfit : hole * 2 + 1 ≤ intMax) (hnonneg : 0 ≤ h.curSize) :
    percolateLoop h temp hole = set h hole temp := by
  rw [percolateLoop_turn, percolateIter, int_eq (by simp only [intMin]; omega) hfit, pure_bind,
    int_eq (by simp only [intMin]; omega) (by omega), pure_bind, if_neg (by omega)]

/-- From place 2^30 on `hole*2+1` is no `int`. -/
theorem percolateLoop_far {h : IntHeap κ υ} {hole : Int} (temp : Ptr) (hfar : 2 ^ 30 ≤ hole) :
    percolateLoop h temp hole = throw .overflow := by
  rw [percolateLoop_turn, percolateIter, int_overflow (by simp only [intMax]; omega)]
  rfl

/-- All are due at 1, but the one at place 2^30 at 0. -/
def lastFirst (a : Nat) : Option (HeapTimer Unit Unit) :=
  some ⟨if a = 2 ^ 30 then 0 else 1, none, ()⟩

/-- The heap as `percolate_down` finds it, with one timer more than 2^30. -/
def tooMany : TimeHeap Unit Unit :=
  ⟨copied (fun i => some i) (2 ^ 30 + 1), 2 ^ 30 + 1, 2 ^ 30 + 1, lastFirst⟩

theorem tooMany_array {i : Nat} (hi : i ≤ 2 ^ 30) : tooMany.array i = some i := if_pos (by omega)

theorem tooMany_load (i : Nat) :
    load (ofNat tooMany) (some i) = pure ⟨if i = 2 ^ 30 then 0 else 1, none, ()⟩ := rfl

theorem tooMany_expireAt {i : Nat} (hi : i ≤ 2 ^ 30) :
    expireAt (ofNat tooMany) i = pure (if i = 2 ^ 30 then 0 else 1) := by
  have harray := tooMany_array hi
  rw [expireAt_live (h := tooMany) (by show i < 2 ^ 30 + 1; omega)
    (by rw [harray]; exact ⟨i, _, rfl, rfl⟩), harray]
  rfl

theorem tooMany_get {i : Nat} (hi : i ≤ 2 ^ 30) : get (ofNat tooMany) i = pure (some i) := by
  have harray := tooMany_array hi
  rw [(get_mirrors tooMany i).eq_pure (if_pos (by show i < 2 ^ 30 + 1; omega)), harray]
  rfl

/-- Of the two children of the last place that has any, the right one is due first. -/
theorem tooMany_chooseChild :
    chooseChild (ofNat tooMany) ((2 ^ 30 - 1 : Nat) : Int) ((2 ^ 30 : Nat) : Int) =
      pure ((2 ^ 30 : Nat) : Int) := by
  have hnext : ((2 ^ 30 - 1 : Nat) : Int) + 1 = ((2 ^ 30 : Nat) : Int) := by omega
  have hright := tooMany_expireAt (Nat.le_refl (2 ^ 30))
  have hleft := tooMany_expireAt (Nat.sub_le (2 ^ 30) 1)
  rw [if_pos rfl] at hright
  rw [if_neg (by omega)] at hleft
  rw [chooseChild, if_pos (by omega), hnext, hright, pure_bind, hleft, pure_bind,
    if_pos Int.zero_lt_one]

/-- Its timer goes down to place 2^30. -/
theorem tooMany_percolateDown :
    percolateDown (ofNat tooMany) ((2 ^ 29 - 1 : Nat) : Int) = throw .overflow := by
  have hleft : int (((2 ^ 29 - 1 : Nat) : Int) * 2 + 1) = pure ((2 ^ 30 - 1 : Nat) : Int) :=
    (int_eq (by simp only [intMin]; omega) (by simp only [intMax]; omega)).trans
      (congrArg pure (by omega))
  have hlast : int ((ofNat tooMany).curSize - 1) = pure ((2 ^ 30 : Nat) : Int) := by
    have hsize : (ofNat tooMany).curSize = ((2 ^ 30 + 1 : Nat) : Int) := rfl
    rw [hsize]
    exact (int_eq (by simp only [intMin]; omega) (by simp only [intMax]; omega)).trans
      (congrArg pure (by omega))
  have hright := tooMany_expireAt (Nat.le_refl (2 ^ 30))
  rw [if_pos rfl] at hright
  have hload := tooMany_load (2 ^ 29 - 1)
  rw [if_neg (by omega)] at hload
  have hset : ∀ p, set (ofNat tooMany) ((2 ^ 29 - 1 : Nat) : Int) p = pure (ofNat
      { tooMany with array := Function.update tooMany.array (2 ^ 29 - 1) p }) := fun p =>
    (set_mirrors tooMany (2 ^ 29 - 1) p).eq_pure (if_pos (by show 2 ^ 29 - 1 < 2 ^ 30 + 1; omega))
  rw [percolateDown, tooMany_get (by omega), pure_bind, percolateLoop_turn, percolateIter, hleft,
    pure_bind, hlast, pure_bind, if_pos (by omega), tooMany_chooseChild, pure_bind, hright,
    pure_bind, hload, pure_bind, if_pos Int.zero_lt_one, tooMany_get (Nat.le_refl _), pure_bind,
    hset, pure_bind]
  exact percolateLoop_far _ (by omega)

/-- The place the loop starts at has no child. -/
theorem tooMany_percolateDown_first :
    percolateDown (ofNat tooMany) ((2 ^ 29 : Nat) : Int) = pure (ofNat tooMany) := by
  have harray : tooMany.array (2 ^ 29) = some (2 ^ 29) := tooMany_array (by omega)
  have hsize : (ofNat tooMany).curSize = ((2 ^ 30 + 1 : Nat) : Int) := rfl
  rw [percolateDown, tooMany_get (by omega), pure_bind,
    percolateLoop_leaf _ (by omega) (by rw [hsize]; omega) (by simp only [intMax]; omega)
      (by rw [hsize]; omega)]
  refine ((set_mirrors tooMany (2 ^ 29) _).eq_pure
    (if_pos (by show 2 ^ 29 < 2 ^ 30 + 1; omega))).trans ?_
  rw [← harray, Function.update_eq_self]

/-- With one timer more than 2^30 an `int` goes out of range. -/
theorem build_heap_tooMany :
    (∀ i < 2 ^ 30 + 1, Live lastFirst (some i)) ∧
      build (fun i => some i) ((2 ^ 30 + 1 : Nat) : Int) ((2 ^ 30 + 1 : Nat) : Int) lastFirst =
        throw .overflow := by
  constructor
  · intro i _
    exact ⟨i, _, rfl, rfl⟩
  · have hcopy : copyLoop (fun i => pure (some i)) (((2 ^ 30 + 1 : Nat) : Int)).toNat 0
        ({ init ((2 ^ 30 + 1 : Nat) : Int) lastFirst with curSize := ((2 ^ 30 + 1 : Nat) : Int) }) =
        pure (ofNat tooMany) :=
      copyLoop_copied (fun i => some i) lastFirst (Nat.le_refl (2 ^ 30 + 1))
    have hsize : (ofNat tooMany).curSize = ((2 ^ 30 + 1 : Nat) : Int) := rfl
    have hint : int (((2 ^ 30 + 1 : Nat) : Int) - 1) = pure ((2 ^ 30 : Nat) : Int) :=
      (int_eq (by simp only [intMin]; omega) (by simp only [intMax]; omega)).trans
        (congrArg pure (by omega))
    have hlast : (((2 ^ 30 : Nat) : Int).tdiv 2 + 1).toNat = 2 ^ 29 - 1 + 1 + 1 := by
      rw [Int.tdiv_eq_ediv_of_nonneg (by omega)]
      omega
    have hprev : 2 ^ 29 - 1 + 1 = 2 ^ 29 := by omega
    rw [build, if_pos (by omega), hcopy, pure_bind, hsize, hint, pure_bind, hlast, percolateAll,
      hprev, tooMany_percolateDown_first, pure_bind, ← hprev, percolateAll,
      tooMany_percolateDown]
    rfl

end

end Checked
end TimerHeap
end Unpvol1
