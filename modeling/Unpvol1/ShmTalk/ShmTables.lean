import Mathlib.Data.List.Basic
import Mathlib.Data.List.Nodup
import Mathlib.Logic.Function.Basic
import Unpvol1.Lib.Machine

/-!
# ShmTalk.ShmTables

The tables `users` and `sub_process` of the shared-memory chat server
(`13-4shm_talk_server.cpp`), and the children. A child keeps the index it was started with;
the parent moves its last user into the hole that a child leaves.

* `start`, `delUser` — the parent after `fork`, and the body of its `waitpid` loop.
* `Tables`           — the two tables are inverse on the children that are still to be reaped.
* `apart_iff`        — the exact condition for the children to write to different segments.
* `apart_of_lastFirst` — it holds when the child reaped is always the last of the table.
-/

namespace Unpvol1
namespace ShmTables

def USER_LIMIT : Nat := 5
def BUFFER_SIZE : Nat := 1024
def PROCESS_LIMIT : Nat := 65536

/-- A live child: its pid and the index `run_child` was called with. -/
structure Child where
  pid : Nat
  idx : Nat
deriving DecidableEq

/-- `users i` is `users[i].pid`. `zombies` are the children that have exited and are still to be
waited for, `signals` the SIGCHLD bytes in `sig_pipefd`; `reaping` says that the parent is in its
`waitpid` loop. -/
structure State where
  users : Nat → Nat
  userCount : Nat
  subProcess : Nat → Int
  children : List Child
  zombies : List Nat
  signals : Nat
  reaping : Bool

inductive Step where
  | acceptFails
  /-- A client is accepted; `fork` is what `fork` returns in the parent, none for -1. -/
  | arrive (fork : Option Nat)
  /-- A child exits. `sent` is false when a SIGCHLD is pending already. -/
  | exit (pid : Nat) (sent : Bool)
  | sigchld
  | reap (pid : Nat)
  /-- `waitpid` finds no more children. -/
  | reapEnd
deriving DecidableEq

/-- The parent after `fork`, and the child. -/
def start (pid : Nat) (s : State) : State :=
  { s with
    users := Function.update s.users s.userCount pid
    subProcess := Function.update s.subProcess pid s.userCount
    userCount := s.userCount + 1
    children := s.children ++ [⟨pid, s.userCount⟩] }

/-- A connection accepted; with too many users it is closed at once. -/
def arrive (fork : Option Nat) (s : State) : State :=
  if USER_LIMIT ≤ s.userCount then s
  else
    match fork with
    | none => s
    | some pid => start pid s

/-- The body of the `waitpid` loop. The entries are assigned in the order of the source: deleting
the last user assigns to its own `sub_process` entry again. -/
def delUser (pid : Nat) (s : State) : State :=
  let user := s.subProcess pid
  let cleared := Function.update s.subProcess pid (-1)
  if user < 0 ∨ (USER_LIMIT : Int) < user then { s with subProcess := cleared }
  else
    let last := s.users (s.userCount - 1)
    { s with
      userCount := s.userCount - 1
      users := Function.update s.users user.toNat last
      subProcess := Function.update cleared last user }

def step (s : State) : Step → State
  | .acceptFails => s
  | .arrive fork => arrive fork s
  | .exit pid sent =>
    { s with
      children := s.children.filter fun c => c.pid ≠ pid
      zombies := pid :: s.zombies
      signals := s.signals + sent.toNat }
  | .sigchld => { s with signals := s.signals - 1, reaping := true }
  | .reap pid => delUser pid { s with zombies := s.zombies.erase pid }
  | .reapEnd => { s with reaping := false }

/-- The pids that are in use: a pid is free again when its child has been waited for. -/
def State.pids (s : State) : List Nat := s.children.map Child.pid ++ s.zombies

/-- What the calls of the parent can return; a pid that `fork` returns is an index of
`sub_process`. -/
def enabled (s : State) : Step → Bool
  | .acceptFails => !s.reaping
  | .arrive fork =>
    !s.reaping && fork.all fun pid => pid < PROCESS_LIMIT && !s.pids.contains pid
  | .exit pid _ => (s.children.map Child.pid).contains pid
  | .sigchld => !s.reaping && 0 < s.signals
  | .reap pid => s.reaping && s.zombies.contains pid
  | .reapEnd => s.reaping && s.zombies.isEmpty

def machine : Machine State Step := ⟨step, fun s i => enabled s i = true⟩

instance (s : State) (i : Step) : Decidable (machine.ok s i) :=
  inferInstanceAs (Decidable (enabled s i = true))

/-- The state before the first client; `users` is not initialised. -/
def initial (users : Nat → Nat) : State := ⟨users, 0, fun _ => -1, [], [], 0, false⟩

/-- Where the segment of a child begins in `share_mem`. -/
def Child.offset (c : Child) : Nat := c.idx * BUFFER_SIZE

/-- No two live children write to the same segment. -/
def Apart (s : State) : Prop := s.children.Pairwise fun c d => c.offset ≠ d.offset

instance (s : State) : Decidable (Apart s) := inferInstanceAs (Decidable (List.Pairwise _ _))

/-- The parent has moved the child to another entry of `users`. -/
def moved (s : State) (c : Child) : Bool := s.subProcess c.pid ≠ c.idx

/-- When a client is accepted, no live child that the parent has moved was started at the entry
where the new one is put. -/
def Clear (s : State) : Step → Prop
  | .arrive (some _) =>
    s.userCount < USER_LIMIT → ∀ c ∈ s.children, moved s c = true → c.idx ≠ s.userCount
  | _ => True

instance (s : State) (i : Step) : Decidable (Clear s i) := by
  unfold Clear
  split <;> infer_instance

/-- The child reaped is the last of the table. -/
def LastFirst (s : State) : Step → Prop
  | .reap pid => s.users (s.userCount - 1) = pid
  | _ => True

/-! ## The tables -/

/-- The table holds the children that are still to be reaped, each once, and `sub_process` leads
back to the entry. -/
structure Tables (s : State) : Prop where
  count : s.userCount ≤ USER_LIMIT
  nodup : s.pids.Nodup
  rows : ∀ i, i < s.userCount → s.users i ∈ s.pids ∧ s.subProcess (s.users i) = i
  listed : ∀ p ∈ s.pids, ∃ i, i < s.userCount ∧ s.users i = p

section
variable {s : State}

theorem tables_initial (users : Nat → Nat) : Tables (initial users) where
  count := Nat.zero_le _
  nodup := List.nodup_nil
  rows := fun _ hi => absurd hi (Nat.not_lt_zero _)
  listed := fun _ hp => absurd hp (List.not_mem_nil)

/-- The invariant reads no more than the tables and the pids in use. -/
theorem Tables.of_perm {s' : State} (h : Tables s) (husers : s'.users = s.users)
    (hcount : s'.userCount = s.userCount) (hsub : s'.subProcess = s.subProcess)
    (hperm : s'.pids.Perm s.pids) : Tables s' where
  count := hcount ▸ h.count
  nodup := hperm.nodup_iff.mpr h.nodup
  rows := by
    intro i hi
    rw [hcount] at hi
    rw [husers, hsub, hperm.mem_iff]
    exact h.rows i hi
  listed := by
    intro p hp
    rw [hcount, husers]
    exact h.listed p (hperm.mem_iff.mp hp)

theorem Tables.users_inj (h : Tables s) {i j : Nat} (hi : i < s.userCount) (hj : j < s.userCount)
    (he : s.users i = s.users j) : i = j := by
  have hrow := (h.rows i hi).2
  rw [he, (h.rows j hj).2] at hrow
  exact (Int.ofNat.inj hrow).symm

/-- A child in use has an entry of `sub_process` below `user_count`, and `users` agrees. -/
theorem Tables.entry (h : Tables s) {p : Nat} (hp : p ∈ s.pids) :
    ∃ i, i < s.userCount ∧ s.users i = p ∧ s.subProcess p = i := by
  obtain ⟨i, hi, rfl⟩ := h.listed p hp
  exact ⟨i, hi, rfl, (h.rows i hi).2⟩

theorem start_pids (pid : Nat) : (start pid s).pids.Perm (pid :: s.pids) := by
  simp only [start, State.pids, List.map_append, List.map_cons, List.map_nil, List.append_assoc,
    List.singleton_append]
  exact List.perm_middle

theorem Tables.start (h : Tables s) (hcount : s.userCount < USER_LIMIT) {pid : Nat}
    (hfresh : pid ∉ s.pids) : Tables (start pid s) := by
  have hperm := start_pids (s := s) pid
  constructor
  · exact hcount
  · exact hperm.nodup_iff.mpr (List.nodup_cons.mpr ⟨hfresh, h.nodup⟩)
  · intro i hi
    rw [hperm.mem_iff]
    simp only [ShmTables.start] at hi ⊢
    rcases Nat.lt_succ_iff_lt_or_eq.mp hi with hlt | rfl
    · have hrow := h.rows i hlt
      have hne : s.users i ≠ pid := fun he => hfresh (he ▸ hrow.1)
      rw [Function.update_of_ne (Nat.ne_of_lt hlt), Function.update_of_ne hne]
      exact ⟨List.mem_cons_of_mem _ hrow.1, hrow.2⟩
    · simp
  · intro p hp
    rcases List.mem_cons.mp (hperm.mem_iff.mp hp) with rfl | hold
    · exact ⟨s.userCount, Nat.lt_succ_self _, by simp [ShmTables.start]⟩
    · obtain ⟨i, hi, rfl⟩ := h.listed p hold
      refine ⟨i, Nat.lt_succ_of_lt hi, ?_⟩
      simp [ShmTables.start, Function.update_of_ne (Nat.ne_of_lt hi)]

/-- What the loop body does for a child of the table, at entry `i`. -/
theorem delUser_eq {pid i : Nat} (hi : i ≤ USER_LIMIT) (hsub : s.subProcess pid = i) :
    delUser pid s =
      { s with
        userCount := s.userCount - 1
        users := Function.update s.users i (s.users (s.userCount - 1))
        subProcess := Function.update (Function.update s.subProcess pid (-1))
          (s.users (s.userCount - 1)) i } := by
  have hrange : ¬((i : Int) < 0 ∨ (USER_LIMIT : Int) < i) := by omega
  simp only [delUser, hsub, if_neg hrange, Int.toNat_natCast]

/-- Deleting moves the last user into the hole. `z` are the zombies left. -/
theorem Tables.delUser (h : Tables s) {pid : Nat} {z : List Nat}
    (hz : s.zombies.Perm (pid :: z)) :
    Tables (delUser pid { s with zombies := z }) := by
  have hperm : s.pids.Perm (pid :: ({ s with zombies := z } : State).pids) :=
    (hz.append_left _).trans List.perm_middle
  have hnodup := List.nodup_cons.mp (hperm.nodup_iff.mp h.nodup)
  obtain ⟨d, hd, hdp, hsub⟩ := h.entry (hperm.mem_iff.mpr List.mem_cons_self)
  have hstep : ShmTables.delUser pid { s with zombies := z } = _ :=
    delUser_eq (s := { s with zombies := z }) (Nat.le_trans (Nat.le_of_lt hd) h.count) hsub
  rw [hstep]
  have hpred : s.userCount - 1 < s.userCount := by omega
  constructor
  · exact Nat.le_trans (Nat.sub_le _ _) h.count
  · exact hnodup.2
  · intro i hi
    change i < s.userCount - 1 at hi
    have hlt : i < s.userCount := Nat.lt_of_lt_of_le hi (Nat.sub_le _ _)
    change Function.update s.users d (s.users (s.userCount - 1)) i ∈
        State.pids { s with zombies := z } ∧ Function.update (Function.update s.subProcess pid (-1))
        (s.users (s.userCount - 1)) d (Function.update s.users d (s.users (s.userCount - 1)) i) = i
    have hmem : ∀ j, j < s.userCount → j ≠ d → s.users j ∈ State.pids { s with zombies := z } := by
      intro j hj hjd
      rcases List.mem_cons.mp (hperm.mem_iff.mp (h.rows j hj).1) with he | hin
      · exact absurd (h.users_inj hj hd (he.trans hdp.symm)) hjd
      · exact hin
    by_cases hid : i = d
    · subst hid
      rw [Function.update_self, Function.update_self]
      exact ⟨hmem _ hpred (Nat.ne_of_gt hi), rfl⟩
    · have hpid : s.users i ≠ pid := fun he => hid (h.users_inj hlt hd (he.trans hdp.symm))
      have hlast : s.users i ≠ s.users (s.userCount - 1) :=
        fun he => Nat.ne_of_lt hi (h.users_inj hlt hpred he)
      rw [Function.update_of_ne hid, Function.update_of_ne hlast, Function.update_of_ne hpid]
      exact ⟨hmem i hlt hid, (h.rows i hlt).2⟩
  · intro p hp
    change p ∈ State.pids { s with zombies := z } at hp
    change ∃ i, i < s.userCount - 1 ∧ Function.update s.users d (s.users (s.userCount - 1)) i = p
    obtain ⟨i, hi, rfl⟩ := h.listed p (hperm.mem_iff.mpr (List.mem_cons_of_mem _ hp))
    have hid : i ≠ d := fun he => hnodup.1 (hdp ▸ he ▸ hp)
    by_cases hlast : i = s.userCount - 1
    · subst hlast
      exact ⟨d, by omega, Function.update_self ..⟩
    · exact ⟨i, by omega, Function.update_of_ne hid ..⟩

/-- Exiting moves a pid from the children to the zombies. -/
theorem exit_pids {pid : Nat} (hnodup : (s.children.map Child.pid).Nodup)
    (hp : pid ∈ s.children.map Child.pid) :
    (((s.children.filter fun c => c.pid ≠ pid).map Child.pid) ++ pid :: s.zombies).Perm s.pids := by
  have herase : (s.children.filter fun c => c.pid ≠ pid).map Child.pid =
      (s.children.map Child.pid).erase pid := by
    rw [hnodup.erase_eq_filter, List.filter_map]
    congr 1
    exact List.filter_congr fun c _ => by rw [Bool.eq_iff_iff]; simp
  rw [herase]
  exact List.perm_middle.trans ((List.perm_cons_erase hp).symm.append_right s.zombies)

theorem fresh_of_ok {pid : Nat} (hok : machine.ok s (.arrive (some pid))) : pid ∉ s.pids := by
  have hfork : s.reaping = false ∧ pid < PROCESS_LIMIT ∧ pid ∉ s.pids := by
    simpa [machine, enabled] using hok
  exact hfork.2.2

theorem step_tables (s : State) (i : Step) (h : Tables s) (hok : machine.ok s i) :
    Tables (machine.step s i) := by
  cases i with
  | acceptFails => exact h
  | arrive fork =>
    change Tables (arrive fork s)
    unfold arrive
    split
    · exact h
    · cases fork with
      | none => exact h
      | some pid => exact h.start (by omega) (fresh_of_ok hok)
  | exit pid sent =>
    have hp : pid ∈ s.children.map Child.pid := List.contains_iff_mem.mp hok
    exact h.of_perm rfl rfl rfl (exit_pids (List.nodup_append.mp h.nodup).1 hp)
  | sigchld => exact h.of_perm rfl rfl rfl (List.Perm.refl _)
  | reap pid =>
    have hz : s.reaping = true ∧ pid ∈ s.zombies := by simpa [machine, enabled] using hok
    exact h.delUser (List.perm_cons_erase hz.2)
  | reapEnd => exact h.of_perm rfl rfl rfl (List.Perm.refl _)

/-! ## The segments -/

/-- The segments of two children that begin at different offsets share no byte. -/
theorem disjoint_of_offset_ne {c d : Child} (h : c.offset ≠ d.offset) :
    c.offset + BUFFER_SIZE ≤ d.offset ∨ d.offset + BUFFER_SIZE ≤ c.offset := by
  have hne : c.idx ≠ d.idx := fun he => h (congrArg (· * BUFFER_SIZE) he)
  unfold Child.offset BUFFER_SIZE
  omega

/-- A child that has not been moved was started below `user_count`. -/
theorem Tables.idx_lt (h : Tables s) {c : Child} (hc : c ∈ s.children) (hstay : moved s c = false) :
    c.idx < s.userCount := by
  obtain ⟨i, hi, _, hsub⟩ := h.entry (List.mem_append_left _ (List.mem_map_of_mem hc))
  have he : s.subProcess c.pid = c.idx := by simpa [moved] using hstay
  omega

theorem apart_start (h : Tables s) (hcount : s.userCount < USER_LIMIT) (ha : Apart s) {pid : Nat} :
    Apart (start pid s) ↔ Clear s (.arrive (some pid)) := by
  have hoffset : ∀ c : Child, c.offset ≠ Child.offset ⟨pid, s.userCount⟩ ↔ c.idx ≠ s.userCount := by
    intro c
    simp only [Child.offset, BUFFER_SIZE]
    omega
  simp only [Apart, start, List.pairwise_append, List.pairwise_singleton, List.mem_singleton,
    forall_eq, true_and, Clear, hcount, forall_true_left, hoffset]
  constructor
  · rintro ⟨_, hall⟩ c hc _
    exact hall c hc
  · intro hclear
    refine ⟨ha, ?_⟩
    intro c hc
    cases hm : moved s c with
    | true => exact hclear c hc hm
    | false => exact Nat.ne_of_lt (h.idx_lt hc hm)

theorem delUser_children (pid : Nat) (s : State) : (delUser pid s).children = s.children := by
  unfold delUser
  dsimp only
  split <;> rfl

/-- Only the start of a child can bring two to one segment. -/
theorem step_apart (s : State) (i : Step) (h : Tables s) (_ : machine.ok s i) (ha : Apart s) :
    Apart (machine.step s i) ↔ Clear s i := by
  cases i with
  | arrive fork =>
    change Apart (arrive fork s) ↔ _
    unfold arrive
    split
    · rename_i hfull
      cases fork with
      | none => exact iff_of_true ha trivial
      | some pid => exact iff_of_true ha fun hlt => absurd hfull (Nat.not_le.mpr hlt)
    · rename_i hroom
      cases fork with
      | none => exact iff_of_true ha trivial
      | some pid => exact apart_start h (Nat.lt_of_not_le hroom) ha
  | exit pid sent => exact iff_of_true (ha.filter _) trivial
  | reap pid =>
    refine iff_of_true ?_ trivial
    change (delUser pid _).children.Pairwise _
    rw [delUser_children]
    exact ha
  | acceptFails => exact iff_of_true ha trivial
  | sigchld => exact iff_of_true ha trivial
  | reapEnd => exact iff_of_true ha trivial

/-- The children write to different segments, as long as no client is put at the entry where a
live child was started that has been moved since. -/
theorem apart_iff (users : Nat → Nat) (steps : List Step)
    (hvalid : machine.Valid (initial users) steps) :
    machine.Always Apart (initial users) steps ↔ machine.Each Clear (initial users) steps :=
  Machine.always_iff_each step_tables step_apart (tables_initial users) List.Pairwise.nil hvalid

theorem apart_iff_threeClients :
    machine.Always Apart (initial fun _ => 0)
        [.arrive (some 70), .arrive (some 71), .exit 71 true, .sigchld, .reap 71, .reapEnd,
          .arrive (some 71)] ↔
      machine.Each Clear (initial fun _ => 0)
        [.arrive (some 70), .arrive (some 71), .exit 71 true, .sigchld, .reap 71, .reapEnd,
          .arrive (some 71)] :=
  apart_iff (fun _ => 0) _ (by decide)

/-- The first of two children exits; the second keeps index 1, and the next client gets it again. -/
theorem not_apart : ¬∀ (users : Nat → Nat) (steps : List Step),
    machine.Valid (initial users) steps → machine.Always Apart (initial users) steps := by
  intro h
  have hlast := (h (fun _ => 0) [.arrive (some 70), .arrive (some 71), .exit 70 true, .sigchld,
    .reap 70, .reapEnd, .arrive (some 72)] (by decide)).last
  revert hlast
  decide

/-! ## Runs in which the last user goes first -/

/-- No live child has been moved. -/
def Unmoved (s : State) : Prop := ∀ c ∈ s.children, moved s c = false

theorem apart_of_unmoved (h : Tables s) (hu : Unmoved s) : Apart s := by
  have hpids : s.children.Pairwise fun c d => c.pid ≠ d.pid :=
    List.pairwise_map.mp (List.nodup_append.mp h.nodup).1
  refine hpids.imp_of_mem ?_
  intro c d hc hd hne he
  have hidx : c.idx = d.idx := Nat.eq_of_mul_eq_mul_right (by decide) he
  have hentry : ∀ e ∈ s.children, s.users e.idx = e.pid := by
    intro e hin
    obtain ⟨i, _, hi, hsub⟩ := h.entry (List.mem_append_left _ (List.mem_map_of_mem hin))
    have hstay : s.subProcess e.pid = e.idx := by simpa [moved] using hu e hin
    rwa [Int.ofNat.inj (hstay.symm.trans hsub)]
  exact hne (by rw [← hentry c hc, ← hentry d hd, hidx])

theorem unmoved_start (hu : Unmoved s) {pid : Nat} (hfresh : pid ∉ s.pids) :
    Unmoved (start pid s) := by
  intro c hc
  rcases List.mem_append.mp hc with hold | hnew
  · have hne : c.pid ≠ pid := by
      rintro rfl
      exact hfresh (List.mem_append_left _ (List.mem_map_of_mem hold))
    have hstay := hu c hold
    simpa [moved, start, Function.update_of_ne hne] using hstay
  · obtain rfl := List.mem_singleton.mp hnew
    simp [moved, start]

theorem unmoved_delUser (h : Tables s) (hu : Unmoved s) {pid : Nat} (hz : pid ∈ s.zombies)
    (hlast : s.users (s.userCount - 1) = pid) :
    Unmoved (delUser pid { s with zombies := s.zombies.erase pid }) := by
  obtain ⟨d, hd, _, hsub⟩ := h.entry (List.mem_append_right _ hz)
  have hstep : delUser pid { s with zombies := s.zombies.erase pid } = _ :=
    delUser_eq (s := { s with zombies := s.zombies.erase pid })
      (Nat.le_trans (Nat.le_of_lt hd) h.count) hsub
  rw [hstep]
  intro c hc
  have hne : c.pid ≠ pid := by
    rintro rfl
    exact (List.nodup_append.mp h.nodup).2.2 c.pid (List.mem_map_of_mem hc) c.pid hz rfl
  have hstay := hu c hc
  simpa [moved, hlast, Function.update_of_ne hne] using hstay

theorem step_unmoved (s : State) (i : Step) (h : Tables s ∧ Unmoved s) (hok : machine.ok s i)
    (hlast : LastFirst s i) : Tables (machine.step s i) ∧ Unmoved (machine.step s i) := by
  refine ⟨step_tables s i h.1 hok, ?_⟩
  cases i with
  | arrive fork =>
    change Unmoved (arrive fork s)
    unfold arrive
    split
    · exact h.2
    · cases fork with
      | none => exact h.2
      | some pid => exact unmoved_start h.2 (fresh_of_ok hok)
  | exit pid sent => exact fun c hc => h.2 c (List.mem_of_mem_filter hc)
  | reap pid =>
    have hz : s.reaping = true ∧ pid ∈ s.zombies := by simpa [machine, enabled] using hok
    exact unmoved_delUser h.1 h.2 hz.2 hlast
  | acceptFails => exact h.2
  | sigchld => exact h.2
  | reapEnd => exact h.2

/-- When the child reaped is always the last of the table, every child keeps its segment to
itself. -/
theorem apart_of_lastFirst (users : Nat → Nat) (steps : List Step)
    (hvalid : machine.Valid (initial users) steps)
    (hlast : machine.Each LastFirst (initial users) steps) :
    machine.Always Apart (initial users) steps :=
  Machine.Always.imp (fun _ h => apart_of_unmoved h.1 h.2) <|
    Machine.always_inv_of_each step_unmoved
      ⟨tables_initial users, fun _ hc => absurd hc (List.not_mem_nil)⟩ hvalid hlast

end

end ShmTables
end Unpvol1
