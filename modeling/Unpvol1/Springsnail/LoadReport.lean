import Unpvol1.Springsnail.Parent

/-!
# Springsnail.LoadReport

Does the parent know a child's load once it has read all of its reports?

A report is one byte, the parent reads up to four at a time. What `m_busy_ratio` holds is the last
value stored (`ratio_run`), and the bytes of that value are the last of the stream
(`consumed_eq`).

* `report_iff` — once everything a child sent is consumed, its ratio is the count of its last report
  just when that count is legible from the last group of reports read at once (`Legible`): a group
  of one needs a count below 256, a larger group has to be the digits of the last count, and an
  `EAGAIN` counts as a group of none.
* `report_misread` — two reports read at once.
-/

namespace Unpvol1
namespace Springsnail

/-! ## What the parent stores -/

namespace Parent

/-- The bytes an input stores in the ratio of the child on pipe `fd`, if it stores one. -/
def stored (fd : Int) : ParentInput → Option (List UInt8)
  | .report sockfd o => if sockfd = fd then reportBytes o else none
  | .announce => none
  | .sigchld _ => none

def lastStored (fd : Int) : List ParentInput → Option (List UInt8)
  | [] => none
  | i :: is => (lastStored fd is).or (stored fd i)

/-- All bytes the parent received from the child on pipe `fd`. -/
def consumed (fd : Int) (is : List ParentInput) : List UInt8 :=
  is.flatMap fun i => (stored fd i).getD []

theorem reportBytes_length {o : RecvOutcome} {bs : List UInt8} (h : reportBytes o = some bs) :
    bs.length ≤ 4 := by
  unfold reportBytes at h
  split at h
  · cases h
    simp
  · cases h
  · cases h
  · rename_i hgot
    cases h
    exact recv_length hgot

theorem lastStored_length {fd : Int} {is : List ParentInput} {bs : List UInt8}
    (h : lastStored fd is = some bs) : bs.length ≤ 4 := by
  induction is with
  | nil => cases h
  | cons i is ih =>
    simp only [lastStored] at h
    cases hl : lastStored fd is with
    | some bs' =>
      rw [hl] at h
      cases h
      exact ih hl
    | none =>
      rw [hl, Option.none_or] at h
      cases i with
      | announce => cases h
      | sigchld pids => cases h
      | report sockfd o =>
        simp only [stored] at h
        split at h
        · exact reportBytes_length h
        · cases h

/-- The bytes stored last are the last bytes received. -/
theorem consumed_eq (fd : Int) (is : List ParentInput) :
    match lastStored fd is with
    | none => consumed fd is = []
    | some bs => bs <:+ consumed fd is := by
  induction is with
  | nil => rfl
  | cons i is ih =>
    have hcons : consumed fd (i :: is) = (stored fd i).getD [] ++ consumed fd is := rfl
    simp only [lastStored]
    cases hl : lastStored fd is with
    | some bs =>
      rw [hl] at ih
      simp only [Option.some_or]
      rw [hcons]
      exact ih.trans (List.suffix_append _ _)
    | none =>
      rw [hl] at ih
      simp only [Option.none_or]
      cases hs : stored fd i with
      | none => simp [hcons, hs, ih]
      | some bs => simp [hcons, hs, ih]

/-! ## One step and a run -/

theorem setRatio_get {sockfd v : Int} {ps : List Process} {i : Nat} {p : Process}
    (hd : (ps.map Process.pipefd).Nodup) (h : ps[i]? = some p) :
    (setRatio sockfd v ps)[i]? =
      some (if sockfd = p.pipefd then { p with busyRatio := v } else p) := by
  induction ps generalizing i with
  | nil => simp at h
  | cons q ps ih =>
    rw [List.map_cons, List.nodup_cons] at hd
    simp only [setRatio]
    cases i with
    | zero =>
      obtain rfl : q = p := Option.some.inj h
      by_cases hq : sockfd = q.pipefd
      · rw [if_pos hq, if_pos hq]
        rfl
      · rw [if_neg hq, if_neg hq]
        rfl
    | succ i =>
      rw [List.getElem?_cons_succ] at h
      by_cases hq : sockfd = q.pipefd
      · -- the pipes are distinct, so a match at the head is no match further on
        have hmem : p.pipefd ∈ ps.map Process.pipefd :=
          List.mem_map_of_mem (List.mem_of_getElem? h)
        have hne : sockfd ≠ p.pipefd := by
          intro e
          exact hd.1 (by rw [← hq, e]; exact hmem)
        rw [if_pos hq, if_neg hne, List.getElem?_cons_succ, h]
      · rw [if_neg hq, List.getElem?_cons_succ]
        exact ih hd.2 h

theorem markDead_get (pid : Int) {ps : List Process} {i : Nat} {p : Process}
    (h : ps[i]? = some p) :
    ∃ p', (markDead pid ps)[i]? = some p' ∧ p'.pipefd = p.pipefd ∧ p'.busyRatio = p.busyRatio := by
  refine ⟨if p.pid = pid then { p with pid := -1 } else p, ?_, ?_, ?_⟩
  · rw [markDead, List.getElem?_map, h]
    rfl
  · split <;> rfl
  · split <;> rfl

theorem reap_get {pids : List Int} {s : Parent} {i : Nat} {p : Process} (h : s.procs[i]? = some p) :
    ∃ p', (reap pids s).procs[i]? = some p' ∧ p'.pipefd = p.pipefd ∧
      p'.busyRatio = p.busyRatio := by
  induction pids generalizing s p with
  | nil => exact ⟨p, h, rfl, rfl⟩
  | cons pid pids ih =>
    obtain ⟨p1, h1, hfd, hratio⟩ := markDead_get pid h
    obtain ⟨p2, h2, hfd', hratio'⟩ := ih (s := ⟨markDead pid s.procs, _, s.stop, s.notified⟩) h1
    exact ⟨p2, h2, hfd'.trans hfd, hratio'.trans hratio⟩

/-- Only a report on its own pipe changes the ratio of a child. -/
theorem ratio_step {s : Parent} {i : Nat} {p : Process} (inp : ParentInput)
    (h : s.procs[i]? = some p) :
    ∃ p', (parent.step s inp).procs[i]? = some p' ∧ p'.pipefd = p.pipefd ∧
      p'.busyRatio = (match stored p.pipefd inp with
        | none => p.busyRatio
        | some bs => leInt32 bs) := by
  cases inp with
  | announce => exact ⟨p, h, rfl, rfl⟩
  | sigchld pids => exact reap_get h
  | report sockfd o =>
    show ∃ p', (s.readReport sockfd o).procs[i]? = some p' ∧ _
    unfold readReport
    simp only [stored]
    cases hb : reportBytes o with
    | none => exact ⟨p, h, rfl, by rw [ite_self]⟩
    | some bs =>
      refine ⟨_, setRatio_get s.distinct h, ?_, ?_⟩
      · split <;> rfl
      · by_cases hfd : sockfd = p.pipefd
        · rw [if_pos hfd, if_pos hfd]
        · rw [if_neg hfd, if_neg hfd]

/-- After any run, the ratio of a child is the last value stored for it. -/
theorem ratio_run {s : Parent} {i : Nat} {p : Process} (is : List ParentInput)
    (h : s.procs[i]? = some p) :
    ∃ p', (parent.run s is).procs[i]? = some p' ∧ p'.pipefd = p.pipefd ∧
      p'.busyRatio = (match lastStored p.pipefd is with
        | none => p.busyRatio
        | some bs => leInt32 bs) := by
  induction is generalizing s p with
  | nil => exact ⟨p, h, rfl, rfl⟩
  | cons inp is ih =>
    obtain ⟨p1, h1, hfd1, hratio1⟩ := ratio_step inp h
    obtain ⟨p2, h2, hfd2, hratio2⟩ := ih h1
    refine ⟨p2, h2, hfd2.trans hfd1, ?_⟩
    rw [hratio2, hfd1]
    simp only [lastStored]
    cases lastStored p.pipefd is with
    | some bs => rfl
    | none =>
      rw [hratio1]
      rfl

end Parent

/-! ## Reports -/

/-- The counts of the reports the pipe took. -/
def sentCounts (reports : List (Nat × SendOutcome)) : List Nat :=
  (reports.filter fun r => notifyParentBusyRatio r.1 r.2 ≠ []).map Prod.fst

/-- Everything a child put on its pipe. -/
def stream (reports : List (Nat × SendOutcome)) : List UInt8 :=
  reports.flatMap fun r => notifyParentBusyRatio r.1 r.2

theorem notify_cases (cnt : Nat) (o : SendOutcome) :
    notifyParentBusyRatio cnt o = [] ∨ notifyParentBusyRatio cnt o = [lowByte cnt] := by
  unfold notifyParentBusyRatio
  split
  · rename_i n _
    cases n with
    | zero => exact .inl rfl
    | succ n => exact .inr (by simp)
  · exact .inl rfl

/-- The stream is the low bytes of the counts sent. -/
theorem stream_eq (reports : List (Nat × SendOutcome)) :
    stream reports = (sentCounts reports).map lowByte := by
  induction reports with
  | nil => rfl
  | cons r reports ih =>
    have hcons : stream (r :: reports) = notifyParentBusyRatio r.1 r.2 ++ stream reports := rfl
    rw [hcons, ih]
    rcases notify_cases r.1 r.2 with h | h
    · simp [sentCounts, h]
    · simp [sentCounts, h]

/-- The count `n` can be read off the last `k` of the reports `cs`: it is an `int` of at most `k`
base-256 digits, and these are the low bytes of those reports in order. -/
def Legible (cs : List Nat) (k n : Nat) : Prop :=
  n < 2 ^ 31 ∧ n < 256 ^ k ∧
    ∀ i < k, ((cs.drop (cs.length - k))[i]?).map (· % 256) = some (n / 256 ^ i % 256)

instance (cs : List Nat) (k n : Nat) : Decidable (Legible cs k n) := by
  unfold Legible; infer_instance

/-- How many reports the parent read at once when it last stored a ratio for the child on `fd`. -/
def lastGroup (fd : Int) (is : List ParentInput) : Nat :=
  ((Parent.lastStored fd is).getD []).length

/-- Bytes at the end of a stream of reports stand for `n` just when `n` is legible from them. -/
theorem suffix_legible {cs : List Nat} {bs : List UInt8} (hbs : bs <:+ cs.map lowByte)
    (hlen : bs.length ≤ 4) (n : Nat) : leInt32 bs = n ↔ Legible cs bs.length n := by
  have hdrop : bs = (cs.drop (cs.length - bs.length)).map lowByte := by
    rw [List.map_drop]
    have h := List.suffix_iff_eq_drop.mp hbs
    rwa [List.length_map] at h
  rw [leInt32_eq_iff hlen, leNat_eq_iff, Legible]
  refine and_congr_right fun _ => and_congr_right fun _ => ?_
  refine forall_congr' fun i => forall_congr' fun hi => ?_
  have hget : (cs.drop (cs.length - bs.length))[i]?.map (· % 256) = some bs[i].toNat := by
    have hb : ((cs.drop (cs.length - bs.length)).map lowByte)[i]? = some bs[i] := by
      rw [← hdrop]
      exact List.getElem?_eq_getElem hi
    rw [List.getElem?_map] at hb
    obtain ⟨c, hc, hcb⟩ := Option.map_eq_some_iff.mp hb
    rw [hc, Option.map_some, ← hcb, lowByte_toNat]
  rw [hget]
  exact ⟨congrArg some, Option.some.inj⟩

/-- **The parent's view of a child's load**: in every run after which the parent has read all the
child sent, the ratio equals the child's last count just when that is legible from the last group
of reports. -/
theorem report_iff (s : Parent) (i : Nat) (p : Process) (hp : s.procs[i]? = some p)
    (reports : List (Nat × SendOutcome)) (n : Nat) (hlast : (sentCounts reports).getLast? = some n)
    (is : List ParentInput) (hall : Parent.consumed p.pipefd is = stream reports) :
    ((parent.run s is).procs[i]?).map Process.busyRatio = some (n : Int) ↔
      Legible (sentCounts reports) (lastGroup p.pipefd is) n := by
  obtain ⟨p', hp', -, hratio⟩ := Parent.ratio_run is hp
  have hend := Parent.consumed_eq p.pipefd is
  rw [hp', Option.map_some, Option.some.injEq, hratio, lastGroup]
  cases hl : Parent.lastStored p.pipefd is with
  | none =>
    -- then nothing was consumed, but the last report put a byte on the pipe
    rw [hl] at hend
    rw [hend, stream_eq] at hall
    have hnil : sentCounts reports = [] := List.map_eq_nil_iff.mp hall.symm
    rw [hnil] at hlast
    cases hlast
  | some bs =>
    rw [hl] at hend
    simp only [hall, stream_eq] at hend
    exact suffix_legible hend (Parent.lastStored_length hl) n

/-- A parent with two children, on pipes 10 and 11. -/
def twoChildren : Parent :=
  ⟨[⟨0, 100, 10⟩, ⟨0, 101, 11⟩], by decide, false, []⟩

/-- The first child reports its first two clients, and each report is read alone. -/
theorem report_read_alone :
    ((parent.run twoChildren [.report 10 (.data [2]), .report 11 (.data [2]),
      .report 10 (.data [4])]).procs[0]?).map Process.busyRatio = some ((4 : Nat) : Int) :=
  (report_iff twoChildren 0 ⟨0, 100, 10⟩ rfl [(2, .take 1), (4, .take 1)] 4 (by decide)
    [.report 10 (.data [2]), .report 11 (.data [2]), .report 10 (.data [4])] (by decide)).mpr
    (by decide)

/-- The same two reports read at once: the parent takes the child to have 1026 connections in
use. -/
theorem report_misread :
    (sentCounts [(2, .take 1), (4, .take 1)]).getLast? = some 4 ∧
      Parent.consumed 10 [.report 10 (.data [2, 4])] = stream [(2, .take 1), (4, .take 1)] ∧
      ((parent.run twoChildren [.report 10 (.data [2, 4])]).procs[0]?).map Process.busyRatio =
        some 1026 ∧
      ((parent.run twoChildren [.report 10 (.data [2, 4])]).procs[0]?).map Process.busyRatio ≠
        some 4 := by
  decide

end Springsnail
end Unpvol1
