import Unpvol1.Springsnail.LoadReport

/-!
# Springsnail.MostFree

Which child does the parent give a new connection to?

* `mostFree_first` — the scan of the table finds the first entry with the lowest ratio, dead or
  alive: its loop keeps that of the entries passed.
* `figure`         — a child's ratio, from the reports read on its pipe.
* `pid_run`        — a child is dead once `waitpid` has returned its pid.
* `mostFree_iff`   — the child found is the freest of the living just when some living child has a
  lower ratio than every dead one, or the same and a lower index.
-/

namespace Unpvol1
namespace Springsnail
namespace Parent

/-! ## The scan -/

/-- At `idx` is the first entry with the lowest ratio among those before `n`. -/
def FirstLowest (ps : List Process) (n idx : Nat) (ratio : Int) : Prop :=
  (∃ p, ps[idx]? = some p ∧ p.busyRatio = ratio) ∧ idx ≤ n ∧
    ∀ i q, i < n → ps[i]? = some q → ratio < q.busyRatio ∨ (ratio = q.busyRatio ∧ idx ≤ i)

/-- One turn of the loop. -/
theorem FirstLowest.next {ps : List Process} {n idx : Nat} {ratio : Int}
    (h : FirstLowest ps n idx ratio) {p : Process} (hp : ps[n]? = some p) :
    if p.busyRatio < ratio then FirstLowest ps (n + 1) n p.busyRatio
    else FirstLowest ps (n + 1) idx ratio := by
  obtain ⟨hidx, hle, hlow⟩ := h
  split
  · rename_i hlt
    refine ⟨⟨p, hp, rfl⟩, Nat.le_succ n, ?_⟩
    intro i q hi hq
    by_cases hin : i = n
    · subst hin
      cases hp.symm.trans hq
      exact .inr ⟨rfl, Nat.le_refl i⟩
    · rcases hlow i q (by omega) hq with hless | ⟨heq, _⟩
      · exact .inl (Int.lt_trans hlt hless)
      · exact .inl (heq ▸ hlt)
  · rename_i hge
    refine ⟨hidx, Nat.le_succ_of_le hle, ?_⟩
    intro i q hi hq
    by_cases hin : i = n
    · subst hin
      cases hp.symm.trans hq
      rcases Int.lt_or_eq_of_le (Int.not_lt.mp hge) with hless | heq
      · exact .inl hless
      · exact .inr ⟨heq, hle⟩
    · exact hlow i q (by omega) hq

/-- The loop, by induction on the entries that are left. -/
theorem mostFreeLoop_first (pre ps : List Process) {idx : Nat} {ratio : Int}
    (h : FirstLowest (pre ++ ps) pre.length idx ratio) :
    ∃ low, FirstLowest (pre ++ ps) (pre ++ ps).length (mostFreeLoop ps pre.length ratio idx)
      low := by
  induction ps generalizing pre idx ratio with
  | nil =>
    refine ⟨ratio, ?_⟩
    simpa only [mostFreeLoop, List.append_nil] using h
  | cons p ps ih =>
    have hp : (pre ++ p :: ps)[pre.length]? = some p := by
      rw [List.getElem?_append_right (Nat.le_refl _), Nat.sub_self, List.getElem?_cons_zero]
    have hnext := h.next hp
    have hsplit : pre ++ p :: ps = (pre ++ [p]) ++ ps := by
      rw [List.append_assoc, List.singleton_append]
    have hlen : pre.length + 1 = (pre ++ [p]).length := by
      rw [List.length_append, List.length_singleton]
    unfold mostFreeLoop
    rw [hsplit, hlen] at hnext
    rw [hsplit, hlen]
    split
    · rename_i hlt
      rw [if_pos hlt] at hnext
      exact ih (pre ++ [p]) hnext
    · rename_i hge
      rw [if_neg hge] at hnext
      exact ih (pre ++ [p]) hnext

theorem mostFree_first {ps : List Process} (hne : ps ≠ []) :
    ∃ low, FirstLowest ps ps.length (getMostFreeSrv ps) low := by
  cases ps with
  | nil => exact absurd rfl hne
  | cons p ps =>
    refine mostFreeLoop_first [] (p :: ps) ⟨⟨p, rfl, rfl⟩, Nat.le_refl 0, ?_⟩
    intro i q hi
    exact absurd hi (Nat.not_lt_zero i)

/-- The child found is alive, and none of the living has a lower ratio. -/
def PicksFreest (ps : List Process) : Prop :=
  ∃ p, ps[getMostFreeSrv ps]? = some p ∧ p.pid ≠ -1 ∧
    ∀ q ∈ ps, q.pid ≠ -1 → p.busyRatio ≤ q.busyRatio

/-- Some living child is before every dead one in the order of the scan. -/
def LivingFirst (ps : List Process) : Prop :=
  ∃ (j : Nat) (c : Process), ps[j]? = some c ∧ c.pid ≠ -1 ∧
    ∀ (i : Nat) (d : Process), ps[i]? = some d → d.pid = -1 →
    c.busyRatio < d.busyRatio ∨ (c.busyRatio = d.busyRatio ∧ j < i)

theorem picksFreest_iff (ps : List Process) : PicksFreest ps ↔ LivingFirst ps := by
  by_cases hne : ps = []
  · subst hne
    refine iff_of_false ?_ ?_
    · rintro ⟨p, hp, _⟩
      cases hp
    · rintro ⟨j, c, hc, _⟩
      cases hc
  · obtain ⟨low, ⟨p, hp, hratio⟩, _, hlow⟩ := mostFree_first hne
    have hfirst : ∀ i q, ps[i]? = some q →
        low < q.busyRatio ∨ (low = q.busyRatio ∧ getMostFreeSrv ps ≤ i) := by
      intro i q hq
      exact hlow i q (List.getElem?_eq_some_iff.mp hq).1 hq
    constructor
    · rintro ⟨p', hp', hlive, _⟩
      cases hp.symm.trans hp'
      refine ⟨getMostFreeSrv ps, p, hp, hlive, ?_⟩
      intro i d hd hdead
      rw [hratio]
      rcases hfirst i d hd with hless | ⟨heq, hle⟩
      · exact .inl hless
      · refine .inr ⟨heq, Nat.lt_of_le_of_ne hle ?_⟩
        intro he
        rw [← he, hp] at hd
        cases hd
        exact hlive hdead
    · rintro ⟨j, c, hc, hlive, hdeads⟩
      refine ⟨p, hp, ?_, ?_⟩
      · intro hdead
        have hcp := hdeads _ p hp hdead
        have hpc := hfirst j c hc
        omega
      · intro q hq _
        obtain ⟨i, hi⟩ := List.mem_iff_getElem?.mp hq
        have := hfirst i q hi
        omega

/-! ## The table after a run -/

/-- The pids `waitpid` has returned. -/
def reaped (is : List ParentInput) : List Int :=
  is.flatMap fun
    | .sigchld pids => pids
    | .report _ _ => []
    | .announce => []

theorem markDead_pid (pid : Int) {ps : List Process} {i : Nat} {p : Process}
    (h : ps[i]? = some p) :
    ∃ p', (markDead pid ps)[i]? = some p' ∧ p'.pid = if p.pid = pid then -1 else p.pid := by
  refine ⟨if p.pid = pid then { p with pid := -1 } else p, ?_, ?_⟩
  · rw [markDead, List.getElem?_map, h]
    rfl
  · split <;> rfl

/-- The record of a child that is dead stays as it is. -/
theorem reap_pid (pids : List Int) {s : Parent} {i : Nat} {p : Process}
    (h : s.procs[i]? = some p) :
    ∃ p', (reap pids s).procs[i]? = some p' ∧ p'.pid = if p.pid ∈ pids then -1 else p.pid := by
  induction pids generalizing s p with
  | nil => exact ⟨p, h, (if_neg List.not_mem_nil).symm⟩
  | cons pid pids ih =>
    obtain ⟨p1, h1, hpid1⟩ := markDead_pid pid h
    obtain ⟨p2, h2, hpid2⟩ := ih (s := ⟨markDead pid s.procs, _, s.stop, s.notified⟩) h1
    refine ⟨p2, h2, ?_⟩
    rw [hpid2, hpid1]
    by_cases he : p.pid = pid
    · rw [if_pos he, if_pos (List.mem_cons.mpr (.inl he)), ite_self]
    · simp only [he, if_false, List.mem_cons, false_or]

theorem pid_step {s : Parent} {i : Nat} {p : Process} (inp : ParentInput)
    (h : s.procs[i]? = some p) :
    ∃ p', (parent.step s inp).procs[i]? = some p' ∧
      p'.pid = if p.pid ∈ reaped [inp] then -1 else p.pid := by
  cases inp with
  | announce => exact ⟨p, h, (if_neg List.not_mem_nil).symm⟩
  | sigchld pids =>
    have hreap := reap_pid pids h
    rwa [show reaped [.sigchld pids] = pids from List.append_nil pids]
  | report sockfd o =>
    rw [show reaped [.report sockfd o] = [] from rfl, if_neg List.not_mem_nil]
    show ∃ p', (s.readReport sockfd o).procs[i]? = some p' ∧ _
    unfold readReport
    cases reportBytes o with
    | none => exact ⟨p, h, rfl⟩
    | some bs =>
      refine ⟨_, setRatio_get s.distinct h, ?_⟩
      split <;> rfl

/-- After any run, the children whose pids were returned are dead, and no others. -/
theorem pid_run {s : Parent} {i : Nat} {p : Process} (is : List ParentInput)
    (h : s.procs[i]? = some p) :
    ∃ p', (parent.run s is).procs[i]? = some p' ∧
      p'.pid = if p.pid ∈ reaped is then -1 else p.pid := by
  induction is generalizing s p with
  | nil => exact ⟨p, h, (if_neg List.not_mem_nil).symm⟩
  | cons inp is ih =>
    obtain ⟨p1, h1, hpid1⟩ := pid_step inp h
    obtain ⟨p2, h2, hpid2⟩ := ih h1
    refine ⟨p2, h2, ?_⟩
    have hsplit : reaped (inp :: is) = reaped [inp] ++ reaped is := by
      simp only [reaped, List.flatMap_cons, List.flatMap_nil, List.append_nil]
    rw [hpid2, hpid1, hsplit]
    by_cases he : p.pid ∈ reaped [inp]
    · rw [if_pos he, if_pos (List.mem_append.mpr (.inl he)), ite_self]
    · simp only [he, if_false, List.mem_append, false_or]

/-- The table as the constructor leaves it. -/
structure Forked (s : Parent) : Prop where
  pid : ∀ p ∈ s.procs, 0 < p.pid
  ratio : ∀ p ∈ s.procs, p.busyRatio = 0

/-- The ratio of a child, from the bytes stored last of those it sent. -/
def figure (is : List ParentInput) (p : Process) : Int :=
  match lastStored p.pipefd is with
  | none => 0
  | some bs => leInt32 bs

/-- The record of a child after a run. -/
theorem forked_run {s : Parent} (hs : Forked s) (is : List ParentInput) {i : Nat} {p : Process}
    (h : s.procs[i]? = some p) :
    ∃ p', (parent.run s is).procs[i]? = some p' ∧ p'.busyRatio = figure is p ∧
      (p'.pid = -1 ↔ p.pid ∈ reaped is) := by
  have hmem := List.mem_of_getElem? h
  have hpos := hs.pid p hmem
  obtain ⟨p1, h1, -, hratio⟩ := ratio_run is h
  obtain ⟨p2, h2, hpid⟩ := pid_run is h
  cases h1.symm.trans h2
  refine ⟨p1, h1, ?_, ?_⟩
  · rw [hratio, hs.ratio p hmem]
    rfl
  · rw [hpid]
    split
    · rename_i hin
      exact iff_of_true rfl hin
    · rename_i hout
      exact iff_of_false (by omega) hout

theorem reap_pipefd (pids : List Int) (s : Parent) :
    (reap pids s).procs.map Process.pipefd = s.procs.map Process.pipefd := by
  induction pids generalizing s with
  | nil => rfl
  | cons pid pids ih => exact (ih _).trans (markDead_pipefd pid s.procs)

/-- The table keeps its entries. -/
theorem pipefd_run (s : Parent) (is : List ParentInput) :
    (parent.run s is).procs.map Process.pipefd = s.procs.map Process.pipefd := by
  induction is generalizing s with
  | nil => rfl
  | cons inp is ih =>
    rw [Machine.run_cons, ih]
    cases inp with
    | announce => rfl
    | sigchld pids => exact reap_pipefd pids s
    | report sockfd o =>
      show (s.readReport sockfd o).procs.map Process.pipefd = _
      unfold readReport
      cases reportBytes o with
      | none => rfl
      | some bs => exact setRatio_pipefd sockfd (leInt32 bs) s.procs

theorem entry_of_run {s : Parent} {is : List ParentInput} {i : Nat} {p' : Process}
    (h : (parent.run s is).procs[i]? = some p') : ∃ p, s.procs[i]? = some p := by
  have hlen := congrArg List.length (pipefd_run s is)
  rw [List.length_map, List.length_map] at hlen
  have hlt := (List.getElem?_eq_some_iff.mp h).1
  exact ⟨s.procs[i], List.getElem?_eq_getElem (hlen ▸ hlt)⟩

/-- Some child that has not been reaped has a lower ratio than every child that has, or the same and
a lower index. -/
def LivingLower (s : Parent) (is : List ParentInput) : Prop :=
  ∃ (j : Nat) (c : Process), s.procs[j]? = some c ∧ c.pid ∉ reaped is ∧
    ∀ (i : Nat) (d : Process), s.procs[i]? = some d → d.pid ∈ reaped is →
      figure is c < figure is d ∨ (figure is c = figure is d ∧ j < i)

theorem livingFirst_run {s : Parent} (hs : Forked s) (is : List ParentInput) :
    LivingFirst (parent.run s is).procs ↔ LivingLower s is := by
  constructor
  · rintro ⟨j, c', hc', hlive, hdeads⟩
    obtain ⟨c, hc⟩ := entry_of_run hc'
    obtain ⟨c₁, hc₁, hratio, hdead⟩ := forked_run hs is hc
    cases hc'.symm.trans hc₁
    refine ⟨j, c, hc, fun hin => hlive (hdead.mpr hin), ?_⟩
    intro i d hd hin
    obtain ⟨d', hd', hratio', hdead'⟩ := forked_run hs is hd
    rw [← hratio, ← hratio']
    exact hdeads i d' hd' (hdead'.mpr hin)
  · rintro ⟨j, c, hc, hlive, hdeads⟩
    obtain ⟨c', hc', hratio, hdead⟩ := forked_run hs is hc
    refine ⟨j, c', hc', fun he => hlive (hdead.mp he), ?_⟩
    intro i d' hd' he
    obtain ⟨d, hd⟩ := entry_of_run hd'
    obtain ⟨d₁, hd₁, hratio', hdead'⟩ := forked_run hs is hd
    cases hd'.symm.trans hd₁
    rw [hratio, hratio']
    exact hdeads i d hd (hdead'.mp he)

/-- After any reports and deaths `get_most_free_srv` finds the freest of the living children, and a
connection announced then goes to it, just when some living child's last report is lower than that
of every dead one, or the same from a lower index. -/
theorem mostFree_iff (s : Parent) (hs : Forked s) (is : List ParentInput) :
    (PicksFreest (parent.run s is).procs ↔ LivingLower s is) ∧
      (parent.run s (is ++ [.announce])).notified =
        (parent.run s is).notified ++ [getMostFreeSrv (parent.run s is).procs] := by
  refine ⟨(picksFreest_iff _).trans (livingFirst_run hs is), ?_⟩
  rw [Machine.run_append]
  rfl

/-- Two children; the second has reported four connections in use, the first two and died. -/
theorem mostFree_dead :
    (∃ p ∈ (parent.run twoChildren [.report 10 (.data [2]), .report 11 (.data [4]),
      .sigchld [100]]).procs, p.pid ≠ -1) ∧
    ¬ PicksFreest (parent.run twoChildren [.report 10 (.data [2]), .report 11 (.data [4]),
      .sigchld [100]]).procs ∧
    (parent.run twoChildren [.report 10 (.data [2]), .report 11 (.data [4]), .sigchld [100],
      .announce]).notified = [0] := by
  refine ⟨⟨⟨4, 101, 11⟩, by decide, by decide⟩, ?_, by decide⟩
  rintro ⟨p, hp, hlive, _⟩
  cases hp
  exact hlive rfl

/-- The same two children, but it is the second that dies. -/
theorem mostFree_living :
    PicksFreest (parent.run twoChildren [.report 10 (.data [2]), .report 11 (.data [4]),
      .sigchld [101]]).procs := by
  refine ((mostFree_iff twoChildren ⟨by decide, by decide⟩ [.report 10 (.data [2]),
    .report 11 (.data [4]), .sigchld [101]]).1).mpr ⟨0, ⟨0, 100, 10⟩, rfl, by decide, ?_⟩
  intro i d hd hin
  cases i with
  | zero =>
    cases hd
    exact absurd hin (by decide)
  | succ i =>
    cases i with
    | zero =>
      cases hd
      exact .inl (by decide)
    | succ i => cases hd

end Parent
end Springsnail
end Unpvol1
