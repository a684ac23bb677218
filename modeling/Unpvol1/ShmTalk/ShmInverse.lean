import Unpvol1.ShmTalk.ShmTables

/-!
# ShmTalk.ShmInverse

Whether `sub_process` and `users` are inverse. Deleting the last user moves it onto itself, so the
entry of `sub_process` that was just cleared is set again.

* `Inverse`      — the two tables are inverse, also where no child is left.
* `step_inverse` — a step keeps them so, unless it deletes the last user.
* `Stale`        — what it leaves then, until the pid is used again.
* `inverse_iff`  — the exact condition, at the end of each loop body and outside the loop.
-/

namespace Unpvol1
namespace ShmTables

/-- `sub_process[p]` is an index just where `users` has the pid `p` there. -/
def Inverse (s : State) : Prop :=
  ∀ p i : Nat, s.subProcess p = i ↔ i < s.userCount ∧ s.users i = p

/-- The child reaped is not the last of the table. -/
def NotLast (s : State) : Step → Prop
  | .reap pid => s.users (s.userCount - 1) ≠ pid
  | _ => True

section
variable {s : State}

/-! ## Keeping the tables inverse -/

theorem inverse_initial (users : Nat → Nat) : Inverse (initial users) := by
  intro p i
  refine iff_of_false ?_ fun h => absurd h.1 (Nat.not_lt_zero i)
  show (-1 : Int) ≠ i
  omega

/-- Being inverse is about the two tables alone. -/
theorem inverse_congr {s' : State} (husers : s'.users = s.users)
    (hcount : s'.userCount = s.userCount) (hsub : s'.subProcess = s.subProcess) :
    Inverse s' ↔ Inverse s := by
  rw [Inverse, Inverse, husers, hcount, hsub]

theorem inverse_start (h : Tables s) (hi : Inverse s) {pid : Nat} (hfresh : pid ∉ s.pids) :
    Inverse (start pid s) := by
  intro p i
  simp only [start]
  by_cases hp : p = pid
  · subst hp
    rw [Function.update_self]
    constructor
    · intro he
      obtain rfl : s.userCount = i := Int.ofNat.inj he
      exact ⟨Nat.lt_succ_self _, Function.update_self ..⟩
    · rintro ⟨hlt, he⟩
      by_cases hic : i = s.userCount
      · rw [hic]
      · -- an older entry holds another pid
        rw [Function.update_of_ne hic] at he
        have hrow := h.rows i (by omega)
        exact absurd (he ▸ hrow.1) hfresh
  · rw [Function.update_of_ne hp, hi p i]
    by_cases hic : i = s.userCount
    · subst hic
      rw [Function.update_self]
      exact iff_of_false (fun hc => absurd hc.1 (Nat.lt_irrefl _)) fun hc => hp hc.2.symm
    · rw [Function.update_of_ne hic]
      exact and_congr_left fun _ => by omega

/-- The entry of a child that is still to be reaped, and the body of the loop for it. -/
theorem Tables.reaped (h : Tables s) {pid : Nat} (hz : pid ∈ s.zombies) (z : List Nat) :
    ∃ d, d < s.userCount ∧ s.users d = pid ∧ s.subProcess pid = d ∧
      ShmTables.delUser pid { s with zombies := z } =
        { s with
          zombies := z
          userCount := s.userCount - 1
          users := Function.update s.users d (s.users (s.userCount - 1))
          subProcess := Function.update (Function.update s.subProcess pid (-1))
            (s.users (s.userCount - 1)) d } := by
  obtain ⟨d, hd, hdp, hsub⟩ := h.entry (List.mem_append_right _ hz)
  exact ⟨d, hd, hdp, hsub, delUser_eq (s := { s with zombies := z })
    (Nat.le_trans (Nat.le_of_lt hd) h.count) hsub⟩

/-- Another user takes the place of the one deleted. -/
theorem inverse_delUser (h : Tables s) (hi : Inverse s) {pid : Nat} (hz : pid ∈ s.zombies)
    {z : List Nat} (hlast : s.users (s.userCount - 1) ≠ pid) :
    Inverse (delUser pid { s with zombies := z }) := by
  obtain ⟨d, hd, hdp, _, hstep⟩ := h.reaped hz z
  have hpred : s.userCount - 1 < s.userCount := by omega
  have hdl : d ≠ s.userCount - 1 := fun he => hlast (he ▸ hdp)
  rw [hstep]
  intro p i
  show Function.update (Function.update s.subProcess pid (-1)) (s.users (s.userCount - 1)) d p = i ↔
    i < s.userCount - 1 ∧ Function.update s.users d (s.users (s.userCount - 1)) i = p
  by_cases hpl : p = s.users (s.userCount - 1)
  · subst hpl
    rw [Function.update_self]
    constructor
    · intro he
      obtain rfl : d = i := Int.ofNat.inj he
      exact ⟨by omega, Function.update_self ..⟩
    · rintro ⟨hlt, he⟩
      by_cases hid : i = d
      · rw [hid]
      · rw [Function.update_of_ne hid] at he
        have := h.users_inj (by omega) hpred he
        omega
  · rw [Function.update_of_ne hpl]
    by_cases hpp : p = pid
    · subst hpp
      rw [Function.update_self]
      refine iff_of_false (by omega) ?_
      rintro ⟨hlt, he⟩
      by_cases hid : i = d
      · rw [hid, Function.update_self] at he
        exact hpl he.symm
      · rw [Function.update_of_ne hid] at he
        exact hid (h.users_inj (by omega) hd (he.trans hdp.symm))
    · rw [Function.update_of_ne hpp, hi p i]
      by_cases hid : i = d
      · subst hid
        rw [Function.update_self]
        refine iff_of_false (fun hc => ?_) fun hc => hpl hc.2.symm
        exact hpp (hc.2.symm.trans hdp)
      · rw [Function.update_of_ne hid]
        refine and_congr_left fun he => ⟨fun hlt => ?_, fun hlt => by omega⟩
        have hil : i ≠ s.userCount - 1 := by
          rintro rfl
          exact hpl he.symm
        omega

/-! ## The last user -/

/-- An entry of `sub_process` for a pid that is not in use. -/
def Stale (s : State) (p : Nat) : Prop := p ∉ s.pids ∧ 0 ≤ s.subProcess p

theorem Stale.not_inverse {p : Nat} (h : Stale s p) (ht : Tables s) : ¬Inverse s := by
  intro hi
  obtain ⟨i, he⟩ := Int.eq_ofNat_of_zero_le h.2
  obtain ⟨hlt, rfl⟩ := (hi p i).mp he
  exact h.1 (ht.rows i hlt).1

/-- The last user deleted leaves its own entry. -/
theorem stale_delUser (h : Tables s) {pid : Nat} (hz : pid ∈ s.zombies)
    (hlast : s.users (s.userCount - 1) = pid) :
    Stale (delUser pid { s with zombies := s.zombies.erase pid }) pid := by
  obtain ⟨d, _, _, _, hstep⟩ := h.reaped hz (s.zombies.erase pid)
  have hperm : s.pids.Perm (pid :: (s.children.map Child.pid ++ s.zombies.erase pid)) :=
    ((List.perm_cons_erase hz).append_left _).trans List.perm_middle
  rw [hstep]
  refine ⟨(List.nodup_cons.mp (hperm.nodup_iff.mp h.nodup)).1, ?_⟩
  show 0 ≤ Function.update (Function.update s.subProcess pid (-1)) (s.users (s.userCount - 1))
    (d : Int) pid
  rw [hlast, Function.update_self]
  exact Int.natCast_nonneg d

/-- While the parent reaps, no pid is used again. -/
theorem Stale.step {p : Nat} (h : Stale s p) (ht : Tables s) {i : Step} (hreap : s.reaping = true)
    (hok : machine.ok s i) : Stale (machine.step s i) p := by
  cases i with
  | acceptFails => exact h
  | arrive fork => simp [machine, enabled, hreap] at hok
  | exit pid sent =>
    have hp : pid ∈ s.children.map Child.pid := List.contains_iff_mem.mp hok
    have hperm := exit_pids (s := s) (List.nodup_append.mp ht.nodup).1 hp
    exact ⟨fun hin => h.1 (hperm.mem_iff.mp hin), h.2⟩
  | sigchld => simp [machine, enabled, hreap] at hok
  | reap pid =>
    have hz : s.reaping = true ∧ pid ∈ s.zombies := by simpa [machine, enabled] using hok
    obtain ⟨d, hd, _, _, hstep⟩ := ht.reaped hz.2 (s.zombies.erase pid)
    have hpid : p ≠ pid := fun he => h.1 (he ▸ List.mem_append_right _ hz.2)
    have hlast : p ≠ s.users (s.userCount - 1) := fun he =>
      h.1 (he ▸ (ht.rows (s.userCount - 1) (by omega)).1)
    show Stale (delUser pid { s with zombies := s.zombies.erase pid }) p
    rw [hstep]
    refine ⟨fun hin => h.1 ?_, ?_⟩
    · rcases List.mem_append.mp hin with hc | hzo
      · exact List.mem_append_left _ hc
      · exact List.mem_append_right _ (List.mem_of_mem_erase hzo)
    · show 0 ≤ Function.update (Function.update s.subProcess pid (-1))
        (s.users (s.userCount - 1)) (d : Int) p
      rw [Function.update_of_ne hlast, Function.update_of_ne hpid]
      exact h.2
  | reapEnd => exact h

/-! ## Runs -/

/-- Only deleting the last user makes the tables differ. -/
theorem step_inverse (s : State) (i : Step) (h : Tables s) (hok : machine.ok s i)
    (hi : Inverse s) : Inverse (machine.step s i) ↔ NotLast s i := by
  cases i with
  | acceptFails => exact iff_of_true hi trivial
  | arrive fork =>
    refine iff_of_true ?_ trivial
    change Inverse (arrive fork s)
    unfold arrive
    split
    · exact hi
    · cases fork with
      | none => exact hi
      | some pid => exact inverse_start h hi (fresh_of_ok hok)
  | exit pid sent => exact iff_of_true ((inverse_congr rfl rfl rfl).mpr hi) trivial
  | sigchld => exact iff_of_true ((inverse_congr rfl rfl rfl).mpr hi) trivial
  | reap pid =>
    have hz : s.reaping = true ∧ pid ∈ s.zombies := by simpa [machine, enabled] using hok
    constructor
    · intro hinv hlast
      have htables : Tables (machine.step s (.reap pid)) := step_tables s (.reap pid) h hok
      exact (stale_delUser h hz.2 hlast).not_inverse htables hinv
    · exact inverse_delUser h hi hz.2
  | reapEnd => exact iff_of_true ((inverse_congr rfl rfl rfl).mpr hi) trivial

/-- An entry that is stale in the loop is so when the loop is left, by induction on the run. -/
theorem stale_run {p : Nat} (steps : List Step) (ht : Tables s) (h : Stale s p)
    (hreap : s.reaping = true) (hv : machine.Valid s steps)
    (hend : (machine.run s steps).reaping = false) :
    ¬machine.Always (fun s => s.reaping = false → Inverse s) s steps := by
  induction steps generalizing s with
  | nil =>
    rw [Machine.run_nil, hreap] at hend
    cases hend
  | cons i steps ih =>
    rintro ⟨_, hrest⟩
    have ht' := step_tables s i ht hv.1
    have h' := h.step ht hreap hv.1
    cases hleft : (machine.step s i).reaping with
    | true => exact ih ht' h' hleft hv.2 hend hrest
    | false =>
      exact h'.not_inverse ht' (Machine.always_iff_initial.mp hrest [] List.nil_prefix hleft)

/-- Outside of the `waitpid` loop the tables are looked at only when it has ended. -/
theorem outside_iff (steps : List Step) (ht : Tables s) (hi : Inverse s)
    (hv : machine.Valid s steps) (hend : (machine.run s steps).reaping = false) :
    machine.Always (fun s => s.reaping = false → Inverse s) s steps ↔
      machine.Each NotLast s steps := by
  constructor
  · intro ha
    induction steps generalizing s with
    | nil => trivial
    | cons i steps ih =>
      have ht' := step_tables s i ht hv.1
      have hnot : NotLast s i := by
        by_contra hlast
        cases i with
        | reap pid =>
          have hz : s.reaping = true ∧ pid ∈ s.zombies := by
            simpa [machine, enabled] using hv.1
          have hreap : (machine.step s (.reap pid)).reaping = true := by
            obtain ⟨d, _, _, _, hstep⟩ := ht.reaped hz.2 (s.zombies.erase pid)
            show (delUser pid { s with zombies := s.zombies.erase pid }).reaping = true
            rw [hstep]
            exact hz.1
          have hstale := stale_delUser ht hz.2 (not_not.mp hlast)
          exact stale_run steps ht' hstale hreap hv.2 hend ha.2
        | _ => exact hlast trivial
      exact ⟨hnot, ih ht' ((step_inverse s i ht hv.1 hi).mpr hnot) hv.2 hend ha.2⟩
  · intro hq
    exact ((Machine.always_iff_each step_tables step_inverse ht hi hv).mpr hq).imp
      fun _ h _ => h

/-- The tables are inverse behind every step of a run just when the child reaped is never the last
of the table; and also when they are looked at outside of the `waitpid` loop only, in a run that
ends there. -/
theorem inverse_iff (users : Nat → Nat) (steps : List Step)
    (hvalid : machine.Valid (initial users) steps) :
    (machine.Always Inverse (initial users) steps ↔
        machine.Each NotLast (initial users) steps) ∧
      ((machine.run (initial users) steps).reaping = false →
        (machine.Always (fun s => s.reaping = false → Inverse s) (initial users) steps ↔
          machine.Each NotLast (initial users) steps)) := by
  have ht := tables_initial users
  have hi := inverse_initial users
  exact ⟨Machine.always_iff_each step_tables step_inverse ht hi hvalid,
    outside_iff steps ht hi hvalid⟩

/-- Two clients; the first leaves. -/
def firstLeaves : List Step :=
  [.arrive (some 70), .arrive (some 71), .exit 70 true, .sigchld, .reap 70, .reapEnd]

theorem inverse_iff_firstLeaves :
    (machine.Always Inverse (initial fun _ => 0) firstLeaves ↔
        machine.Each NotLast (initial fun _ => 0) firstLeaves) ∧
      ((machine.run (initial fun _ => 0) firstLeaves).reaping = false →
        (machine.Always (fun s => s.reaping = false → Inverse s) (initial fun _ => 0) firstLeaves ↔
          machine.Each NotLast (initial fun _ => 0) firstLeaves)) :=
  inverse_iff (fun _ => 0) firstLeaves (by decide)

/-- The only client leaves: its entry says 0, where there are no users. -/
theorem not_inverse : ¬∀ (users : Nat → Nat) (steps : List Step),
    machine.Valid (initial users) steps →
      machine.Always (fun s => s.reaping = false → Inverse s) (initial users) steps := by
  intro h
  have hlast := (h (fun _ => 0) [.arrive (some 70), .exit 70 true, .sigchld, .reap 70, .reapEnd]
    (by decide)).last rfl 70 0
  exact absurd (hlast.mp (by decide)).1 (Nat.lt_irrefl 0)

end

end ShmTables
end Unpvol1
