import Mathlib.Data.List.Basic
import Mathlib.Data.List.Count

/-!
# Lib.Bulletin

Announcements by name. Every sender has one slot; an announcement carries the sender's name only,
and a reader that is told of it copies the sender's slot. `Reader log slot j done told untold` says
what reader `j` has to show for the announcements of the others: those in `done` copied, those in
`told` known by name, and `untold i` of sender `i` that it has not been told of.

* `announce`, `announce_own` — a sender announces its slot.
* `write`    — a slot changes of which the reader has nothing outstanding.
* `tell`     — the reader is told of the oldest announcement it does not know.
* `copy`     — it copies the slot of the oldest it knows.
* `complete` — with nothing outstanding, it has copied all announcements, in their order.
-/

namespace Unpvol1
namespace Bulletin

section
variable {ι α : Type} [DecidableEq ι]

/-- The announcements reader `j` has to copy: those of the others. -/
def addressed (log : List (ι × α)) (j : ι) : List (ι × α) := log.filter fun a => a.1 ≠ j

/-- `copied`, `known` and `fresh` are the announcements for `j` in order: those copied, those it
has been told of, and the rest. -/
structure Split (log : List (ι × α)) (slot : ι → α) (j : ι) (done : List α) (told : List ι)
    (untold : ι → Nat) (copied known fresh : List (ι × α)) : Prop where
  all : addressed log j = copied ++ known ++ fresh
  done_eq : copied.map Prod.snd = done
  told_eq : known.map Prod.fst = told
  current : ∀ a ∈ known ++ fresh, a.2 = slot a.1
  count : ∀ i, i ≠ j → (fresh.map Prod.fst).count i = untold i

def Reader (log : List (ι × α)) (slot : ι → α) (j : ι) (done : List α) (told : List ι)
    (untold : ι → Nat) : Prop :=
  ∃ copied known fresh, Split log slot j done told untold copied known fresh

/-- The sender of the oldest announcement reader `j` has not been told of, with `k` copied or
known. -/
def nextSender (log : List (ι × α)) (j : ι) (k : Nat) : Option ι :=
  ((addressed log j).drop k).head?.map Prod.fst

variable {log : List (ι × α)} {slot : ι → α} {j : ι} {done : List α} {told : List ι}
  {untold : ι → Nat}

theorem addressed_append (log log' : List (ι × α)) (j : ι) :
    addressed (log ++ log') j = addressed log j ++ addressed log' j := List.filter_append ..

theorem fst_ne_of_mem {a : ι × α} (h : a ∈ addressed log j) : a.1 ≠ j := by
  simpa using (List.mem_filter.mp h).2

/-- Nothing announced. -/
theorem reader_nil (slot : ι → α) (j : ι) (hnone : ∀ i, i ≠ j → untold i = 0) :
    Reader [] slot j [] [] untold :=
  ⟨[], [], [], rfl, rfl, rfl, fun _ ha => absurd ha List.not_mem_nil, fun i hi => (hnone i hi).symm⟩

/-- A reader has copied a prefix of what it is to copy. -/
theorem Reader.exact (h : Reader log slot j done told untold) :
    done <+: (addressed log j).map Prod.snd := by
  obtain ⟨copied, known, fresh, h⟩ := h
  rw [h.all, List.append_assoc, List.map_append, h.done_eq]
  exact List.prefix_append _ _

theorem Reader.congr (h : Reader log slot j done told untold) {untold' : ι → Nat}
    (he : ∀ i, i ≠ j → untold' i = untold i) : Reader log slot j done told untold' := by
  obtain ⟨copied, known, fresh, h⟩ := h
  exact ⟨copied, known, fresh, h.all, h.done_eq, h.told_eq, h.current,
    fun i hi => (h.count i hi).trans (he i hi).symm⟩

theorem Reader.announce (h : Reader log slot j done told untold) {c : ι} (hc : c ≠ j)
    {untold' : ι → Nat} (hself : untold' c = untold c + 1)
    (hothers : ∀ i, i ≠ c → untold' i = untold i) :
    Reader (log ++ [(c, slot c)]) slot j done told untold' := by
  obtain ⟨copied, known, fresh, h⟩ := h
  refine ⟨copied, known, fresh ++ [(c, slot c)], ?_, h.done_eq, h.told_eq, ?_, ?_⟩
  · rw [addressed_append, h.all]
    simp [addressed, hc]
  · intro a ha
    rw [← List.append_assoc] at ha
    rcases List.mem_append.mp ha with hold | hnew
    · exact h.current a hold
    · rw [List.mem_singleton.mp hnew]
  · intro i hi
    rw [List.map_append, List.count_append, h.count i hi]
    by_cases hic : i = c
    · subst hic
      simp [hself]
    · simp [hothers i hic, Ne.symm hic]

/-- A reader is not told of its own announcements. -/
theorem Reader.announce_own (h : Reader log slot j done told untold) (x : α) :
    Reader (log ++ [(j, x)]) slot j done told untold := by
  obtain ⟨copied, known, fresh, h⟩ := h
  refine ⟨copied, known, fresh, ?_, h.done_eq, h.told_eq, h.current, h.count⟩
  rw [addressed_append, h.all]
  simp [addressed]

theorem Reader.write (h : Reader log slot j done told untold) {c : ι}
    (hfree : c ≠ j → untold c = 0 ∧ c ∉ told) {slot' : ι → α} (hothers : ∀ i, i ≠ c →
    slot' i = slot i) : Reader log slot' j done told untold := by
  obtain ⟨copied, known, fresh, h⟩ := h
  refine ⟨copied, known, fresh, h.all, h.done_eq, h.told_eq, ?_, h.count⟩
  intro a ha
  have hne : a.1 ≠ c := by
    intro he
    have hmem : a ∈ addressed log j := by
      rw [h.all, List.append_assoc]
      exact List.mem_append_right _ ha
    have hcj : c ≠ j := he ▸ fst_ne_of_mem hmem
    obtain ⟨hzero, htold⟩ := hfree hcj
    rcases List.mem_append.mp ha with hknown | hfresh
    · exact htold (h.told_eq ▸ he ▸ List.mem_map_of_mem hknown)
    · have hcount := h.count c hcj
      rw [hzero, List.count_eq_zero] at hcount
      exact hcount (he ▸ List.mem_map_of_mem hfresh)
  rw [hothers a.1 hne]
  exact h.current a ha

theorem Reader.tell (h : Reader log slot j done told untold) {c : ι}
    (hnext : nextSender log j (done.length + told.length) = some c) {untold' : ι → Nat}
    (hself : untold c = untold' c + 1) (hothers : ∀ i, i ≠ c → untold' i = untold i) :
    Reader log slot j done (told ++ [c]) untold' := by
  obtain ⟨copied, known, fresh, h⟩ := h
  have hlen : done.length + told.length = (copied ++ known).length := by
    rw [← h.done_eq, ← h.told_eq]
    simp
  rw [nextSender, h.all, hlen, List.drop_left, Option.map_eq_some_iff] at hnext
  obtain ⟨a, ha, rfl⟩ := hnext
  obtain ⟨fresh, rfl⟩ := List.head?_eq_some_iff.mp ha
  refine ⟨copied, known ++ [a], fresh, ?_, h.done_eq, ?_, ?_, ?_⟩
  · rw [h.all]
    simp
  · rw [List.map_append, h.told_eq]
    rfl
  · intro b hb
    exact h.current b (by simpa using hb)
  · intro i hi
    have hcount := h.count i hi
    rw [List.map_cons, List.count_cons] at hcount
    by_cases hia : i = a.1
    · subst hia
      rw [if_pos (beq_self_eq_true _)] at hcount
      omega
    · rw [if_neg (by simpa using Ne.symm hia)] at hcount
      rw [hothers i hia]
      omega

theorem Reader.copy {c : ι} (h : Reader log slot j done (c :: told) untold) :
    Reader log slot j (done ++ [slot c]) told untold := by
  obtain ⟨copied, known, fresh, h⟩ := h
  cases known with
  | nil => exact absurd h.told_eq (by simp)
  | cons a known =>
    obtain ⟨rfl, htold⟩ : a.1 = c ∧ known.map Prod.fst = told := by simpa using h.told_eq
    have ha : a.2 = slot a.1 := h.current a (by simp)
    refine ⟨copied ++ [a], known, fresh, ?_, ?_, htold, ?_, h.count⟩
    · rw [h.all]
      simp
    · rw [List.map_append, h.done_eq, List.map_singleton, ha]
    · intro b hb
      exact h.current b (by simpa using Or.inr (by simpa using hb))

theorem Reader.complete (h : Reader log slot j done [] untold)
    (hnone : ∀ i, i ≠ j → untold i = 0) : done = (addressed log j).map Prod.snd := by
  obtain ⟨copied, known, fresh, h⟩ := h
  have hknown : known = [] := List.map_eq_nil_iff.mp h.told_eq
  have hfresh : fresh = [] := by
    cases fresh with
    | nil => rfl
    | cons a fresh =>
      have hmem : a ∈ addressed log j := by
        rw [h.all]
        exact List.mem_append_right _ List.mem_cons_self
      have hcount := h.count a.1 (fst_ne_of_mem hmem)
      rw [hnone a.1 (fst_ne_of_mem hmem)] at hcount
      simp at hcount
  rw [h.all, hknown, hfresh, List.append_nil, List.append_nil, h.done_eq]

end

end Bulletin
end Unpvol1
