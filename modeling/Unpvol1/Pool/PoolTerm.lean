import Unpvol1.Pool.PoolEnd

/-!
# Pool.PoolTerm

Once a SIGTERM or SIGINT has come to its parent, the whole process pool of `Pool.PoolEnd` ends.

* `closing` — the steps that are left when nobody sends further signals.
* `Roomy` — the pipes hold the signals that are on their way, and those that will come.
* `Announced` — a child that has terminated will be waited for.
* `Closing` — every child has been told to end, or will be; `Pool.toGo` what is left to do.
* `Forgotten` — children that have terminated, and will not be waited for.
* `term_ends_iff` — when every schedule ends, with all children waited for and the parent behind
  its loop; otherwise none does.
-/

namespace Unpvol1
namespace PoolEnd

/-- Nobody else sends a signal, and a child terminates when it has been told to. -/
def closing : Machine Pool Step where
  step := step
  ok s e := ok s e ∧
    (match e with
    | .raise _ _ => False
    | .exit i => Alive s i fun p => p.main = .ended ∨ p.main = .terminated
    | _ => True)

/-- A pipe holds what there is and `n` signals more, and they can be read at once. -/
def Fits (p : SelfPipe Signal) (n : Nat) : Prop :=
  p.load + n ≤ signalsSize ∧ p.load + n ≤ p.pipe.cap

instance (p : SelfPipe Signal) (n : Nat) : Decidable (Fits p n) :=
  inferInstanceAs (Decidable (_ ∧ _))

def Signal.kills : Signal → Nat
  | .sigchld => 0
  | _ => 1

def Main.killsAt (i : Nat) : Main → Nat
  | .killing j => if j ≤ i then 1 else 0
  | _ => 0

/-- How often the parent will still call `kill` for child `i` at most. -/
def Pool.killsAt (s : Pool) (i : Nat) : Nat :=
  s.parent.sig.total Signal.kills + s.parent.main.killsAt i

def Life.isAlive : Life → Bool
  | .alive => true
  | _ => false

def Pool.alive (s : Pool) : Nat := s.subs.countP fun sub => sub.life.isAlive

structure Roomy (s : Pool) : Prop where
  parent : Fits s.parent.sig s.alive
  child : ∀ i sub, s.subs[i]? = some sub → Fits sub.child.sig (s.killsAt i)

/-- The parent will wait for the children that have terminated, now or after the next one. -/
def Announced (s : Pool) : Prop :=
  (∃ sub ∈ s.subs, sub.life = .zombie) →
    s.parent.sig.Coming signalsSize .sigchld ∨ s.parent.main = .reaping ∨
      ∃ sub ∈ s.subs, sub.life = .alive

instance (s : Pool) : Decidable (Announced s) := inferInstanceAs (Decidable (_ → _ ∨ _ ∨ _))

/-- The parent has yet to call `kill` for child `i`. -/
def WillKill (s : Pool) (i : Nat) : Prop :=
  (∃ x, x ≠ .sigchld ∧ s.parent.sig.Coming signalsSize x) ∨ s.parent.main.killsAt i = 1

/-- A child that has left its loop, or is about to. -/
def Process.Dying (p : Process) : Prop :=
  p.main = .ended ∨ p.main = .terminated ∨ p.stop = true ∨
    ∃ x, x ≠ .sigchld ∧ p.sig.Coming signalsSize x

structure Closing (s : Pool) : Prop where
  inv : Inv s
  main : s.parent.main.catches = true ∨ s.parent.main = .ended
  doomed : ∀ i sub, s.subs[i]? = some sub → sub.life = .alive → WillKill s i ∨ sub.child.Dying
  announced : Announced s
  roomy : Roomy s

section
variable {s s' : Pool} {e : Step} {p : Process} {q : SelfPipe Signal} {x y : Signal} {n : Nat}

/-! ## Room -/

theorem Fits.mono {m : Nat} (h : Fits q n) (hm : m ≤ n) : Fits q m :=
  ⟨Nat.le_trans (Nat.add_le_add_left hm _) h.1, Nat.le_trans (Nat.add_le_add_left hm _) h.2⟩

theorem Fits.of_le {q' : SelfPipe Signal} {m : Nat} (h : Fits q n)
    (hle : q'.load + m ≤ q.load + n) (hcap : q'.pipe.cap = q.pipe.cap) : Fits q' m :=
  ⟨Nat.le_trans hle h.1, hcap ▸ Nat.le_trans hle h.2⟩

theorem Fits.raise (h : Fits q (n + 1)) (x : Signal) : Fits (q.raise x) n := by
  have hload := SelfPipe.load_raise (p := q) (x := x)
  refine h.of_le (by omega) ?_
  rw [SelfPipe.raise_pipe]

theorem Fits.deliver (h : Fits q n) (hx : x ∈ q.pending) : Fits (q.deliver x) n :=
  h.of_le (Nat.add_le_add_right (SelfPipe.load_deliver hx) n) SelfPipe.deliver_cap

/-- With room for it no signal is lost, and none is left behind in the pipe. -/
theorem Fits.coming (h : Fits q n) (hx : x ∈ q.pending) (hy : q.Coming signalsSize y) :
    (q.deliver x).Coming signalsSize y :=
  hy.deliver (SelfPipe.room_of_load hx (Nat.le_trans (Nat.le_add_right _ _) h.2))
    (SelfPipe.length_of_load hx (Nat.le_trans (Nat.le_add_right _ _) h.1))

theorem Fits.step (h : Fits p.sig n) {l : Process.Local} (hok : p.ok l) :
    Fits (p.step l).sig n := by
  cases l with
  | setup => exact h
  | deliver x => exact h.deliver hok.2
  | report => exact h
  | recv => exact h.of_le (Nat.add_le_add_right SelfPipe.load_recv n) rfl
  | test => exact h

/-- A step of its own keeps what is on its way to a process. -/
theorem coming_step (h : Fits p.sig n) {l : Process.Local} (hok : p.ok l)
    (hy : p.sig.Coming signalsSize y) : (p.step l).sig.Coming signalsSize y := by
  cases l with
  | setup => exact hy
  | deliver x => exact h.coming hok.2 hy
  | report => exact (SelfPipe.coming_report hok.2.2.2.1 hok.2.2.1.1).mpr hy
  | recv => exact (SelfPipe.coming_recv hok.2.1 (List.isEmpty_iff.mp hok.2.2)).mpr hy
  | test => exact hy

theorem total_step {l : Process.Local} (hok : p.ok l) (w : Signal → Nat) :
    (p.step l).sig.total w ≤ p.sig.total w := by
  cases l with
  | setup => exact Nat.le_refl _
  | deliver x => exact SelfPipe.total_deliver hok.2
  | report => exact Nat.le_refl _
  | recv => exact Nat.le_of_eq (SelfPipe.total_recv (List.isEmpty_iff.mp hok.2.2))
  | test => exact Nat.le_refl _

/-- A signal that comes takes a place in the pipe, if it comes to the pipe at all. -/
theorem Fits.processRaise (h : Fits p.sig (n + 1)) (x : Signal) : Fits (p.raise x).sig n := by
  rcases raise_cases x p with ⟨_, _, hp⟩ | ⟨_, _, hp⟩ | ⟨_, hp⟩
  · rw [hp]
    exact h.mono (Nat.le_succ n)
  · rw [hp]
    exact h.mono (Nat.le_succ n)
  · rw [hp]
    exact h.raise x

/-! ## A child that is told to end -/

theorem Process.Dying.step (h : p.Dying) (hfits : Fits p.sig n) {l : Process.Local}
    (hok : p.ok l) : (p.step l).Dying := by
  rcases h with hm | hm | hs | ⟨x, hx, hc⟩
  · cases l with
    | setup => exact absurd (hm.symm.trans hok) (by decide)
    | test => exact .inl rfl
    | deliver x => exact .inl hm
    | report => exact .inl hm
    | recv => exact .inl hm
  · cases l with
    | setup => exact absurd (hm.symm.trans hok) (by decide)
    | test => exact .inl rfl
    | deliver x => exact .inr (.inl hm)
    | report => exact .inr (.inl hm)
    | recv => exact .inr (.inl hm)
  · exact .inr (.inr (.inl ((step_stop p l).trans hs)))
  · exact .inr (.inr (.inr ⟨x, hx, coming_step hfits hok hc⟩))

theorem Process.Dying.act (h : p.Dying) : p.childAct.Dying := by
  rcases h with hm | hm | hs | ⟨x, hx, hc⟩
  · exact .inl ((childAct_main p).trans hm)
  · exact .inr (.inl ((childAct_main p).trans hm))
  · refine .inr (.inr (.inl ?_))
    unfold Process.childAct
    split
    · exact hs
    · exact hs
    · rfl
  · unfold Process.childAct
    split
    · exact .inr (.inr (.inr ⟨x, hx, hc⟩))
    · next hh => exact .inr (.inr (.inr ⟨x, hx, (hc.act hh).resolve_left hx⟩))
    · exact .inr (.inr (.inl rfl))

theorem dying_raise (hx : x ≠ .sigchld) : (p.raise x).Dying := by
  rcases raise_cases x p with ⟨he, _, _⟩ | ⟨_, _, hp⟩ | ⟨_, hp⟩
  · exact absurd he hx
  · rw [hp]
    exact .inr (.inl rfl)
  · rw [hp]
    exact .inr (.inr (.inr ⟨x, hx, SelfPipe.coming_raised⟩))

/-! ## What a step keeps -/

/-- A child that is replaced by one that lives as long. -/
theorem exists_set {i : Nat} {sub sub' : Sub} {l : Life} (hi : s.subs[i]? = some sub)
    (hl : sub'.life = sub.life) :
    (∃ x ∈ s.subs.set i sub', x.life = l) ↔ ∃ x ∈ s.subs, x.life = l :=
  Threads.exists_stay (P := fun x => x.life = l) hi (by rw [hl])

theorem alive_set {i : Nat} {sub sub' : Sub} (hi : s.subs[i]? = some sub)
    (hl : sub'.life = sub.life) :
    (s.subs.set i sub').countP (fun sub => sub.life.isAlive) = s.alive :=
  Threads.count_stay (p := fun sub => sub.life.isAlive) hi (by rw [hl])

theorem Closing.notStarting (h : Closing s) : s.parent.main ≠ .starting := by
  intro hm
  rcases h.main with hc | hc
  · rw [hm] at hc
    cases hc
  · rw [hm] at hc
    cases hc

theorem Closing.exit_sig (h : Closing s) (x : Signal) :
    s.parent.raise x = { s.parent with sig := s.parent.sig.raise x } := by
  rcases raise_cases x s.parent with ⟨_, hm, _⟩ | ⟨_, hm, _⟩ | ⟨_, hp⟩
  · exact absurd hm h.notStarting
  · exact absurd hm h.notStarting
  · exact hp

theorem Closing.main_did (h : Closing s) (hd : Did s e s') (hok : closing.ok s e) :
    s'.parent.main.catches = true ∨ s'.parent.main = .ended := by
  cases hd with
  | @parent l hl =>
    cases l with
    | setup => exact absurd hl h.notStarting
    | test => exact .inr rfl
    | deliver x => exact h.main
    | report => exact h.main
    | recv => exact h.main
  | raiseParent => exact hok.2.elim
  | exit hi halive =>
    rw [h.exit_sig]
    exact h.main
  | reap => exact .inl rfl
  | term => exact .inl rfl
  | kill => exact .inl rfl
  | skip => exact .inl rfl
  | killed => exact .inl rfl
  | noneLeft => exact .inl rfl
  | child => exact h.main
  | raiseChild => exact h.main
  | childAct => exact h.main
  | waited => exact h.main

theorem killsAt_killing (i j : Nat) : (Main.killing i).killsAt j = if i ≤ j then 1 else 0 := rfl

/-- The parent's next call of `kill` is for the next child. -/
theorem killsAt_next {i j : Nat} (hij : j ≠ i) :
    (Main.killing (i + 1)).killsAt j = (Main.killing i).killsAt j := by
  rw [killsAt_killing, killsAt_killing]
  by_cases hle : i ≤ j
  · rw [if_pos hle, if_pos (by omega)]
  · rw [if_neg hle, if_neg (by omega)]

theorem WillKill.next {i j : Nat} {subs : List Sub} {killed : List Nat} (h : WillKill s j)
    (hm : s.parent.main = .killing i) (hij : j ≠ i) :
    WillKill ⟨{ s.parent with main := .killing (i + 1) }, subs, killed⟩ j := by
  refine h.imp id fun hk => ?_
  rw [hm] at hk
  exact (killsAt_next hij).trans hk

/-- Every child has been told to end, or will be. -/
theorem Closing.doomed_did (h : Closing s) (hd : Did s e s') (hok : closing.ok s e) :
    ∀ i sub, s'.subs[i]? = some sub → sub.life = .alive → WillKill s' i ∨ sub.child.Dying := by
  have hold : ∀ {i : Nat} {P : Nat → Prop}, (∀ j, WillKill s j → P j) →
      ∀ j sub, j ≠ i → s.subs[j]? = some sub → sub.life = .alive → P j ∨ sub.child.Dying := by
    intro i P hP j sub _ hj halive
    exact (h.doomed j sub hj halive).imp (hP j) id
  cases hd with
  | @parent l hl =>
    intro i sub hi halive
    refine (h.doomed i sub hi halive).imp (fun hw => ?_) id
    rcases hw with ⟨x, hx, hc⟩ | hk
    · exact .inl ⟨x, hx, coming_step h.roomy.parent hl hc⟩
    · cases l with
      | setup => exact absurd hl h.notStarting
      | test =>
        rw [hl.1] at hk
        cases hk
      | deliver x => exact .inr hk
      | report => exact .inr hk
      | recv => exact .inr hk
  | raiseParent => exact hok.2.elim
  | raiseChild => exact hok.2.elim
  | @child i sub l hi halive hl =>
    refine Threads.forall_get_set (hold fun _ => id) fun _ => ?_
    exact (h.doomed i sub hi halive).imp id fun hdying => hdying.step (h.roomy.child i sub hi) hl
  | reap hm hh =>
    intro i sub hi halive
    refine (h.doomed i sub hi halive).imp (fun hw => ?_) id
    rcases hw with ⟨x, hx, hc⟩ | hk
    · exact .inl ⟨x, hx, (hc.act hh).resolve_left hx⟩
    · rw [hm] at hk
      cases hk
  | term =>
    intro i sub _ _
    exact .inl (.inr ((killsAt_killing 0 i).trans (if_pos (Nat.zero_le i))))
  | @childAct i sub hi halive hacts =>
    refine Threads.forall_get_set (hold fun _ => id) fun _ => ?_
    exact (h.doomed i sub hi halive).imp id Process.Dying.act
  | @kill i sub hm hi hk =>
    have hdying : (sub.child.raise .sigterm).Dying := dying_raise (by decide)
    refine Threads.forall_get_set (fun j x hj hx halive => ?_) fun _ => .inr hdying
    exact (h.doomed j x hx halive).imp (fun hw => hw.next hm hj) id
  | @skip i sub hm hi hk =>
    intro j x hx halive
    by_cases hj : j = i
    · subst hj
      obtain rfl : sub = x := Option.some.inj (hi.symm.trans hx)
      have hknown := (h.inv.known sub (List.mem_of_getElem? hi)).mpr (by rw [halive]; decide)
      exact absurd (hk.symm.trans hknown) Bool.false_ne_true
    · exact (h.doomed j x hx halive).imp (fun hw => hw.next hm hj) id
  | @killed i hm hi =>
    intro j x hx halive
    refine (h.doomed j x hx halive).imp (fun hw => hw.imp id fun hk => ?_) id
    have hlt : j < s.subs.length := (List.getElem?_eq_some_iff.mp hx).1
    have hlen := List.getElem?_eq_none_iff.mp hi
    rw [hm, killsAt_killing, if_neg (by omega)] at hk
    cases hk
  | waited hm hi hz =>
    exact Threads.forall_get_set (hold fun _ => id) fun hl => (by cases hl)
  | noneLeft hm hz =>
    intro i sub hi halive
    refine (h.doomed i sub hi halive).imp (fun hw => hw.imp id fun hk => ?_) id
    rw [hm] at hk
    cases hk
  | exit hi halive =>
    rw [h.exit_sig]
    refine Threads.forall_get_set (hold fun j hw => hw.imp ?_ id) fun hl => (by cases hl)
    rintro ⟨x, hx, hc⟩
    exact ⟨x, hx, hc.raise⟩

theorem Closing.announced_did (h : Closing s) (hd : Did s e s') (hok : closing.ok s e) :
    Announced s' := by
  have hann := h.announced
  have hset : ∀ {i : Nat} {sub sub' : Sub} {parent : Process} {killed : List Nat},
      s.subs[i]? = some sub → sub'.life = sub.life → parent.sig = s.parent.sig →
      (s.parent.main = .reaping → parent.main = .reaping) →
      Announced ⟨parent, s.subs.set i sub', killed⟩ := by
    intro i sub sub' parent killed hi hl hsig hreap hz
    rcases hann ((exists_set hi hl).mp hz) with hc | hr | ha
    · exact .inl (hsig ▸ hc)
    · exact .inr (.inl (hreap hr))
    · exact .inr (.inr ((exists_set hi hl).mpr ha))
  cases hd with
  | @parent l hl =>
    intro hz
    rcases hann hz with hc | hr | ha
    · exact .inl (coming_step h.roomy.parent hl hc)
    · exact .inr (.inl (step_reaping hl hr))
    · exact .inr (.inr ha)
  | raiseParent => exact hok.2.elim
  | raiseChild => exact hok.2.elim
  | child hi => exact hset hi rfl rfl id
  | childAct hi => exact hset hi rfl rfl id
  | reap => exact fun _ => .inr (.inl rfl)
  | term hm hh hx =>
    intro hz
    rcases hann hz with hc | hr | ha
    · exact .inl ((hc.act hh).resolve_left (Ne.symm hx))
    · exact absurd (hr.symm.trans hm) (by decide)
    · exact .inr (.inr ha)
  | kill hm hi => exact hset hi rfl rfl fun hr => absurd (hr.symm.trans hm) (by simp)
  | skip hm hi =>
    exact fun hz => (hann hz).imp id (Or.imp (fun hr => absurd (hr.symm.trans hm) (by simp)) id)
  | killed hm hi =>
    exact fun hz => (hann hz).imp id (Or.imp (fun hr => absurd (hr.symm.trans hm) (by simp)) id)
  | waited hm => exact fun _ => .inr (.inl hm)
  | noneLeft hm hz =>
    rintro ⟨x, hx, hzombie⟩
    exact absurd hzombie (hz x hx)
  | exit hi halive =>
    rw [h.exit_sig]
    exact fun _ => .inl (SelfPipe.coming_raised)

theorem childAct_fits (h : Fits p.sig n) : Fits p.childAct.sig n := by
  unfold Process.childAct
  split
  · exact h
  · exact h
  · exact h

/-- Where the children stay as they are, and no more calls of `kill` are to come. -/
theorem Roomy.keep (h : Roomy s) {parent : Process} {killed : List Nat}
    (hp : Fits parent.sig s.alive)
    (hk : ∀ i, parent.sig.total Signal.kills + parent.main.killsAt i ≤ s.killsAt i) :
    Roomy ⟨parent, s.subs, killed⟩ where
  parent := hp
  child := fun i sub hi => (h.child i sub hi).mono (hk i)

/-- Where one child is replaced. -/
theorem Roomy.replace (h : Roomy s) {parent : Process} {killed : List Nat} {i : Nat}
    {sub' : Sub} (hp : Fits parent.sig ((s.subs.set i sub').countP fun sub => sub.life.isAlive))
    (hk : ∀ j, j ≠ i → parent.sig.total Signal.kills + parent.main.killsAt j ≤ s.killsAt j)
    (hsub : Fits sub'.child.sig (parent.sig.total Signal.kills + parent.main.killsAt i)) :
    Roomy ⟨parent, s.subs.set i sub', killed⟩ where
  parent := hp
  child := Threads.forall_get_set (fun j sub hj hget => (h.child j sub hget).mono (hk j hj)) hsub

theorem Closing.roomy_did (h : Closing s) (hd : Did s e s') (hok : closing.ok s e) : Roomy s' := by
  have hr := h.roomy
  cases hd with
  | @parent l hl =>
    refine hr.keep (hr.parent.step hl) fun i => Nat.add_le_add (total_step hl _) ?_
    cases l with
    | setup => exact absurd hl h.notStarting
    | test => exact Nat.zero_le _
    | deliver x => exact Nat.le_refl _
    | report => exact Nat.le_refl _
    | recv => exact Nat.le_refl _
  | raiseParent => exact hok.2.elim
  | raiseChild => exact hok.2.elim
  | child hi halive hl =>
    exact hr.replace (hr.parent.mono (Nat.le_of_eq (alive_set hi rfl)))
      (fun _ _ => Nat.le_refl _) ((hr.child _ _ hi).step hl)
  | reap hm hh =>
    refine hr.keep hr.parent fun i => ?_
    have htotal := SelfPipe.total_act (w := Signal.kills) hh
    unfold Pool.killsAt
    rw [hm]
    exact Nat.le_of_eq (congrArg (· + 0) htotal)
  | @term x rest hm hh hx =>
    refine hr.keep hr.parent fun i => ?_
    have htotal := SelfPipe.total_act (w := Signal.kills) hh
    have hone : x.kills = 1 := by
      cases x with
      | sigchld => exact absurd rfl hx
      | sigterm => rfl
      | sigint => rfl
    rw [hone] at htotal
    unfold Pool.killsAt
    rw [hm, killsAt_killing, if_pos (Nat.zero_le i)]
    exact Nat.le_of_eq htotal
  | childAct hi halive hacts =>
    exact hr.replace (hr.parent.mono (Nat.le_of_eq (alive_set hi rfl)))
      (fun _ _ => Nat.le_refl _) (childAct_fits (hr.child _ _ hi))
  | @kill i sub hm hi hk =>
    refine hr.replace (hr.parent.mono (Nat.le_of_eq (alive_set hi rfl))) (fun j hj => ?_) ?_
    · unfold Pool.killsAt
      rw [hm]
      exact Nat.le_of_eq (congrArg (s.parent.sig.total Signal.kills + ·) (killsAt_next hj))
    · have hfits := hr.child i sub hi
      unfold Pool.killsAt at hfits
      rw [hm, killsAt_killing, if_pos (Nat.le_refl i)] at hfits
      show Fits (sub.child.raise .sigterm).sig (_ + (Main.killing (i + 1)).killsAt i)
      rw [killsAt_killing, if_neg (Nat.not_succ_le_self i)]
      exact hfits.processRaise .sigterm
  | @skip i sub hm hi hk =>
    refine hr.keep hr.parent fun j => ?_
    unfold Pool.killsAt
    rw [hm, killsAt_killing, killsAt_killing]
    refine Nat.add_le_add_left ?_ _
    split
    · next hle => exact Nat.le_of_eq (if_pos (Nat.le_of_succ_le hle)).symm
    · exact Nat.zero_le _
  | killed hm hi =>
    exact hr.keep hr.parent fun j => Nat.add_le_add_left (Nat.zero_le _) _
  | @waited i sub hm hi hz =>
    refine hr.replace ?_ (fun _ _ => Nat.le_refl _) (hr.child i sub hi)
    have hcount := Threads.count_stay (p := fun sub : Sub => sub.life.isAlive) hi
      (y := { sub with known := false, life := .waited }) (by rw [hz]; rfl)
    rw [hcount]
    exact hr.parent
  | noneLeft hm hz =>
    exact hr.keep hr.parent fun j => Nat.add_le_add_left (Nat.zero_le _) _
  | @exit i sub hi halive =>
    have hcount := Threads.count_move (p := fun sub : Sub => sub.life.isAlive) hi
      { sub with life := .zombie }
    rw [halive] at hcount
    have htotal := SelfPipe.total_raise (p := s.parent.sig) (x := .sigchld) (w := Signal.kills)
    rw [h.exit_sig]
    refine hr.replace ?_ (fun j _ => Nat.add_le_add_right htotal _)
      ((hr.child i sub hi).mono (Nat.add_le_add_right htotal _))
    refine Fits.raise (hr.parent.mono (Nat.le_of_eq ?_)) .sigchld
    simpa [Life.isAlive, Pool.alive] using hcount

theorem Closing.did (h : Closing s) (hd : Did s e s') (hok : closing.ok s e) : Closing s' where
  inv := h.inv.did hd
  main := h.main_did hd hok
  doomed := h.doomed_did hd hok
  announced := h.announced_did hd hok
  roomy := h.roomy_did hd hok

/-! ## What is left to do -/

def Main.childToGo : Main → Nat
  | .starting => 2
  | .looping => 1
  | _ => 0

/-- A child that is alive has to end, and its SIGCHLD to be acted on. -/
def Sub.toGo (sub : Sub) : Nat :=
  match sub.life with
  | .alive => sub.child.main.childToGo + sub.child.sig.work (fun _ => 1) + 7
  | .zombie => 1
  | .waited => 0

/-- A signal that is acted on sends the parent through one of its loops, that of `kill` round by
round; each call of `kill` has a child act on one signal more. -/
def parentWeight (n : Nat) : Signal → Nat
  | .sigchld => 2
  | _ => 5 * n + 2

def Main.parentToGo (n : Nat) : Main → Nat
  | .looping => 1
  | .reaping => 2
  | .killing i => 2 + 5 * (n - i)
  | _ => 0

def Pool.toGo (s : Pool) : Nat :=
  s.parent.main.parentToGo s.subs.length + s.parent.sig.work (parentWeight s.subs.length) +
    (s.subs.map Sub.toGo).sum

theorem step_work {l : Process.Local} (hok : p.ok l) (w : Signal → Nat) :
    (p.step l).sig.work w < p.sig.work w ∨
      (p.step l).sig.work w = p.sig.work w ∧
        (p.main = .starting ∧ (p.step l).main = .looping ∨
          p.main = .looping ∧ (p.step l).main = .ended) := by
  cases l with
  | setup => exact .inr ⟨rfl, .inl ⟨hok, rfl⟩⟩
  | deliver x => exact .inl (SelfPipe.work_deliver hok.2)
  | report => exact .inl (SelfPipe.work_report hok.2.2.2.1 hok.2.2.1.1)
  | recv => exact .inl (SelfPipe.work_recv hok.2.1 (List.isEmpty_iff.mp hok.2.2))
  | test => exact .inr ⟨rfl, .inr ⟨hok.1, rfl⟩⟩

/-- But for the two ends of the loop a step of its own leaves a process where it is. -/
theorem step_main (p : Process) (l : Process.Local) :
    (p.step l).main = p.main ∨ l = .setup ∨ l = .test := by
  cases l with
  | setup => exact .inr (.inl rfl)
  | test => exact .inr (.inr rfl)
  | deliver x => exact .inl rfl
  | report => exact .inl rfl
  | recv => exact .inl rfl

theorem child_toGo {l : Process.Local} (hok : p.ok l) :
    (p.step l).main.childToGo + (p.step l).sig.work (fun _ => 1) <
      p.main.childToGo + p.sig.work fun _ => 1 := by
  rcases step_work hok fun _ => 1 with hlt | ⟨heq, ⟨hm, hm'⟩ | ⟨hm, hm'⟩⟩
  · rcases step_main p l with hm | rfl | rfl
    · rw [hm]
      exact Nat.add_lt_add_left hlt _
    · exact absurd hlt (Nat.lt_irrefl _)
    · exact absurd hlt (Nat.lt_irrefl _)
  · rw [heq, hm, hm']
    exact Nat.add_lt_add_right (by decide) _
  · rw [heq, hm, hm']
    exact Nat.add_lt_add_right (by decide) _

theorem parent_toGo {l : Process.Local} (hok : p.ok l) (hstart : p.main ≠ .starting) :
    (p.step l).main.parentToGo n + (p.step l).sig.work (parentWeight n) <
      p.main.parentToGo n + p.sig.work (parentWeight n) := by
  rcases step_work hok (parentWeight n) with hlt | ⟨heq, ⟨hm, _⟩ | ⟨hm, hm'⟩⟩
  · rcases step_main p l with hm | rfl | rfl
    · rw [hm]
      exact Nat.add_lt_add_left hlt _
    · exact absurd hlt (Nat.lt_irrefl _)
    · exact absurd hlt (Nat.lt_irrefl _)
  · exact absurd hm hstart
  · rw [heq, hm, hm']
    exact Nat.add_lt_add_right (Nat.zero_lt_one) _

/-- A child that acts has one signal less to act on. -/
theorem childAct_toGo (hacts : p.Acts) :
    p.childAct.sig.work (fun _ => 1) < p.sig.work fun _ => 1 := by
  obtain ⟨x, rest, hh⟩ : ∃ x rest, p.sig.inHand = x :: rest := by
    cases hh : p.sig.inHand with
    | nil =>
      have hne := hacts.2
      rw [hh] at hne
      cases hne
    | cons x rest => exact ⟨x, rest, rfl⟩
  have hwork := SelfPipe.work_act (w := fun _ => 1) hh
  have hsig : p.childAct.sig = p.sig.act := by
    unfold Process.childAct
    split
    · next hnil => exact absurd (hh.symm.trans hnil) (List.cons_ne_nil _ _)
    · rfl
    · rfl
  rw [hsig]
  omega

/-- `kill` gives a child four steps more at most. -/
theorem raise_toGo (sub : Sub) : (sub.raise .sigterm).toGo ≤ sub.toGo + 4 := by
  have hraise : (sub.child.raise .sigterm).main.childToGo +
      (sub.child.raise .sigterm).sig.work (fun _ => 1) ≤
        sub.child.main.childToGo + sub.child.sig.work (fun _ => 1) + 4 := by
    rcases raise_cases .sigterm sub.child with ⟨hx, _, _⟩ | ⟨_, hm, hp⟩ | ⟨_, hp⟩
    · cases hx
    · rw [hp, hm]
      show 0 + sub.child.sig.work (fun _ => 1) ≤ 2 + sub.child.sig.work (fun _ => 1) + 4
      omega
    · have hwork := SelfPipe.work_raise (p := sub.child.sig) (x := .sigterm) (w := fun _ => 1)
      rw [hp]
      show sub.child.main.childToGo + (sub.child.sig.raise .sigterm).work (fun _ => 1) ≤ _
      omega
  unfold Sub.toGo
  show (match sub.life with
    | .alive => (sub.child.raise .sigterm).main.childToGo +
        (sub.child.raise .sigterm).sig.work (fun _ => 1) + 7
    | .zombie => 1
    | .waited => 0) ≤ _
  cases sub.life with
  | alive =>
    simp only
    omega
  | zombie => exact Nat.le_add_right _ _
  | waited => exact Nat.le_add_right _ _

theorem toGo_replace {i : Nat} {sub sub' : Sub} {parent : Process} {killed : List Nat}
    (hi : s.subs[i]? = some sub)
    (hlt : parent.main.parentToGo s.subs.length + parent.sig.work (parentWeight s.subs.length) +
      sub'.toGo < s.parent.main.parentToGo s.subs.length +
        s.parent.sig.work (parentWeight s.subs.length) + sub.toGo) :
    Pool.toGo ⟨parent, s.subs.set i sub', killed⟩ < s.toGo := by
  have hmove := Threads.sum_move Sub.toGo hi sub'
  show parent.main.parentToGo (s.subs.set i sub').length +
    parent.sig.work (parentWeight (s.subs.set i sub').length) +
    ((s.subs.set i sub').map Sub.toGo).sum < _
  rw [List.length_set]
  unfold Pool.toGo
  omega

theorem toGo_parent {parent : Process} {killed : List Nat}
    (hlt : parent.main.parentToGo s.subs.length + parent.sig.work (parentWeight s.subs.length) <
      s.parent.main.parentToGo s.subs.length + s.parent.sig.work (parentWeight s.subs.length)) :
    Pool.toGo ⟨parent, s.subs, killed⟩ < s.toGo :=
  Nat.add_lt_add_right hlt _

theorem toGo_alive {sub : Sub} (h : sub.life = .alive) :
    sub.toGo = sub.child.main.childToGo + sub.child.sig.work (fun _ => 1) + 7 := by
  unfold Sub.toGo
  rw [h]

theorem Closing.toGo_did (h : Closing s) (hd : Did s e s') (hok : closing.ok s e) :
    s'.toGo < s.toGo := by
  cases hd with
  | parent hl => exact toGo_parent (parent_toGo hl h.notStarting)
  | raiseParent => exact hok.2.elim
  | raiseChild => exact hok.2.elim
  | @child i sub l hi halive hl =>
    refine toGo_replace hi (Nat.add_lt_add_left ?_ _)
    rw [toGo_alive halive, toGo_alive]
    · exact Nat.add_lt_add_right (child_toGo hl) 7
    · exact halive
  | reap hm hh =>
    have hwork := SelfPipe.work_act (w := parentWeight s.subs.length) hh
    refine toGo_parent ?_
    rw [hm]
    show 2 + s.parent.sig.act.work _ < 1 + _
    have htwo : parentWeight s.subs.length .sigchld = 2 := rfl
    omega
  | @term x rest hm hh hx =>
    have hwork := SelfPipe.work_act (w := parentWeight s.subs.length) hh
    have hweight : parentWeight s.subs.length x = 5 * s.subs.length + 2 := by
      cases x with
      | sigchld => exact absurd rfl hx
      | sigterm => rfl
      | sigint => rfl
    refine toGo_parent ?_
    rw [hm]
    show 2 + 5 * (s.subs.length - 0) + s.parent.sig.act.work _ < 1 + _
    omega
  | @childAct i sub hi halive hacts =>
    refine toGo_replace hi (Nat.add_lt_add_left ?_ _)
    rw [toGo_alive halive, toGo_alive]
    · show sub.child.childAct.main.childToGo + _ + 7 < _
      rw [childAct_main]
      exact Nat.add_lt_add_right (Nat.add_lt_add_left (childAct_toGo hacts) _) 7
    · exact halive
  | @kill i sub hm hi hk =>
    have hlt := (List.getElem?_eq_some_iff.mp hi).1
    have hraise := raise_toGo sub
    refine toGo_replace hi ?_
    rw [hm]
    show 2 + 5 * (s.subs.length - (i + 1)) + s.parent.sig.work _ + (sub.raise .sigterm).toGo <
      2 + 5 * (s.subs.length - i) + _ + _
    omega
  | @skip i sub hm hi hk =>
    have hlt := (List.getElem?_eq_some_iff.mp hi).1
    refine toGo_parent ?_
    rw [hm]
    show 2 + 5 * (s.subs.length - (i + 1)) + s.parent.sig.work _ <
      2 + 5 * (s.subs.length - i) + _
    omega
  | @killed i hm hi =>
    refine toGo_parent ?_
    rw [hm]
    show 1 + s.parent.sig.work _ < 2 + 5 * (s.subs.length - i) + _
    omega
  | @waited i sub hm hi hz =>
    refine toGo_replace hi (Nat.add_lt_add_left ?_ _)
    show 0 < sub.toGo
    unfold Sub.toGo
    rw [hz]
    exact Nat.one_pos
  | noneLeft hm hz =>
    refine toGo_parent ?_
    rw [hm]
    show 1 + s.parent.sig.work _ < 2 + _
    omega
  | @exit i sub hi halive =>
    have hwork := SelfPipe.work_raise (p := s.parent.sig) (x := .sigchld)
      (w := parentWeight s.subs.length)
    have htwo : parentWeight s.subs.length .sigchld = 2 := rfl
    rw [h.exit_sig]
    refine toGo_replace hi ?_
    rw [toGo_alive halive]
    show s.parent.main.parentToGo _ + (s.parent.sig.raise .sigchld).work _ + 1 < _
    omega

/-! ## The end -/

/-- A process that stands still in its loop has been told of no signal, and none will come. -/
theorem still (hm : p.main = .looping) (hstuck : ∀ l, ¬p.ok l) (hacts : ¬p.Acts) :
    p.stop = false ∧ ∀ x, ¬p.sig.Coming signalsSize x := by
  have hhand : p.sig.inHand.isEmpty = true := by
    refine Bool.of_not_eq_false fun hne => ?_
    exact hacts ⟨hm, hne⟩
  have htold : p.sig.told = false := by
    refine Bool.eq_false_iff.mpr fun ht => ?_
    exact hstuck .recv ⟨hm, ht, hhand⟩
  have hstop : p.stop = false := by
    refine Bool.eq_false_iff.mpr fun hs => ?_
    exact hstuck .test ⟨hm, hs, htold, hhand⟩
  have hpending : p.sig.pending = [] := by
    refine List.eq_nil_iff_forall_not_mem.mpr fun x hx => ?_
    refine hstuck (.deliver x) ⟨?_, hx⟩
    rw [hm]
    rfl
  refine ⟨hstop, fun x => SelfPipe.not_coming hpending ⟨htold, hhand⟩ ?_⟩
  by_contra hno
  obtain ⟨hready, hdata⟩ := not_or.mp hno
  refine hstuck .report ⟨hm, hstop, ⟨htold, hhand⟩, Bool.of_not_eq_false hready, ?_⟩
  rw [Bool.eq_false_iff, ne_eq, List.isEmpty_iff]
  exact hdata

theorem killsAt_looping (hm : s.parent.main = .looping ∨ s.parent.main = .ended) (i : Nat) :
    s.parent.main.killsAt i ≠ 1 := by
  rcases hm with hm | hm
  · rw [hm]
    exact Nat.zero_ne_one
  · rw [hm]
    exact Nat.zero_ne_one

/-- Where nobody can go on, the parent is in neither of its own loops. -/
theorem Closing.rests (h : Closing s) (hstuck : closing.Stuck s) :
    s.parent.main = .looping ∨ s.parent.main = .ended := by
  rcases h.main with hc | he
  · cases hm : s.parent.main with
    | looping => exact .inl rfl
    | killing i =>
      have hkills : s.parent.main.kills = true := by
        rw [hm]
        rfl
      exact absurd ⟨hkills, trivial⟩ (hstuck .kill)
    | reaping =>
      by_cases hz : ∀ sub ∈ s.subs, sub.life ≠ .zombie
      · exact absurd ⟨⟨hm, hz⟩, trivial⟩ (hstuck (.waitpid none))
      · simp only [not_forall, not_not] at hz
        obtain ⟨sub, hsub, hlife⟩ := hz
        obtain ⟨i, hi⟩ := List.getElem?_of_mem hsub
        exact absurd ⟨⟨hm, sub, hi, hlife⟩, trivial⟩ (hstuck (.waitpid (some i)))
    | _ =>
      rw [hm] at hc
      cases hc
  · exact .inr he

theorem parent_still (hstuck : closing.Stuck s) (hm : s.parent.main = .looping) :
    s.parent.stop = false ∧ ∀ x, ¬s.parent.sig.Coming signalsSize x :=
  still hm (fun l hl => hstuck (.parent l) ⟨hl, trivial⟩) fun ha => hstuck .act ⟨ha, trivial⟩

/-- Where nobody can go on, no child is alive: it would have been told to end, or the parent would
have yet to tell it. -/
theorem Closing.noneAlive (h : Closing s) (hstuck : closing.Stuck s) :
    ∀ sub ∈ s.subs, sub.life ≠ .alive := by
  intro sub hsub halive
  obtain ⟨i, hi⟩ := List.getElem?_of_mem hsub
  have hrest := h.rests hstuck
  have hlocal : ∀ l, ¬sub.child.ok l := by
    intro l hl
    exact hstuck (.child i l) ⟨⟨sub, hi, halive, hl⟩, trivial⟩
  have hexit : ¬(sub.child.main = .ended ∨ sub.child.main = .terminated) := by
    intro hm
    exact hstuck (.exit i) ⟨⟨sub, hi, halive, trivial⟩, sub, hi, halive, hm⟩
  have hmain : sub.child.main = .looping := by
    have hloops := h.inv.child sub hsub
    cases hm : sub.child.main with
    | looping => rfl
    | starting => exact absurd hm (hlocal .setup)
    | ended => exact absurd (.inl hm) hexit
    | terminated => exact absurd (.inr hm) hexit
    | reaping =>
      rw [hm] at hloops
      cases hloops
    | killing j =>
      rw [hm] at hloops
      cases hloops
  have hstill := still hmain hlocal fun ha =>
    hstuck (.childAct i) ⟨⟨sub, hi, halive, ha⟩, trivial⟩
  rcases h.doomed i sub hi halive with (⟨x, hx, hc⟩ | hk) | hm | hm | hs | ⟨x, hx, hc⟩
  · rcases hrest with hm | hm
    · exact (parent_still hstuck hm).2 x hc
    · exact absurd (halive.symm.trans (h.inv.stop (h.inv.ended hm) sub hsub)) (by decide)
  · exact killsAt_looping hrest i hk
  · exact hexit (.inl hm)
  · exact hexit (.inr hm)
  · exact Bool.false_ne_true (hstill.1.symm.trans hs)
  · exact hstill.2 x hc

/-- Then the parent has waited for all, and left its loop. -/
theorem Closing.ends (h : Closing s) (hne : s.subs ≠ []) (hstuck : closing.Stuck s) :
    s.parent.main = .ended ∧ ∀ sub ∈ s.subs, sub.life = .waited := by
  have hnone := h.noneAlive hstuck
  rcases h.rests hstuck with hm | hm
  · obtain ⟨hstop, hcoming⟩ := parent_still hstuck hm
    have hreaping : s.parent.main ≠ .reaping := by
      rw [hm]
      decide
    have hwaited : ∀ sub ∈ s.subs, sub.life = .waited := by
      intro sub hsub
      cases hl : sub.life with
      | waited => rfl
      | alive => exact absurd hl (hnone sub hsub)
      | zombie =>
        rcases h.announced ⟨sub, hsub, hl⟩ with hc | hr | ⟨x, hx, ha⟩
        · exact absurd hc (hcoming _)
        · exact absurd hr hreaping
        · exact absurd ha (hnone x hx)
    rcases h.inv.done hwaited hne with hs | hr
    · exact absurd (hstop.symm.trans hs) Bool.false_ne_true
    · exact absurd hr hreaping
  · exact ⟨hm, h.inv.stop (h.inv.ended hm)⟩

theorem did_length (hd : Did s e s') : s'.subs.length = s.subs.length := by
  cases hd with
  | child => exact List.length_set
  | raiseChild => exact List.length_set
  | childAct => exact List.length_set
  | kill => exact List.length_set
  | waited => exact List.length_set
  | exit => exact List.length_set
  | _ => rfl

theorem did_ne_nil (h : s.subs ≠ []) (hd : Did s e s') : s'.subs ≠ [] := by
  refine List.ne_nil_of_length_pos ?_
  rw [did_length hd]
  exact List.length_pos_of_ne_nil h

/-! ## What nobody announces -/

/-- A step of its own brings no signal to a process. -/
theorem coming_of_step {l : Process.Local} (hok : p.ok l)
    (hy : (p.step l).sig.Coming signalsSize y) : p.sig.Coming signalsSize y := by
  cases l with
  | setup => exact hy
  | deliver x => exact SelfPipe.Coming.of_deliver hy hok.2
  | report => exact (SelfPipe.coming_report hok.2.2.2.1 hok.2.2.1.1).mp hy
  | recv => exact (SelfPipe.coming_recv hok.2.1 (List.isEmpty_iff.mp hok.2.2)).mp hy
  | test => exact hy

/-- Zombies the parent does not hear of, and no child is left whose end would tell it. -/
structure Forgotten (s : Pool) : Prop where
  zombie : ∃ sub ∈ s.subs, sub.life = .zombie
  silent : ¬s.parent.sig.Coming signalsSize .sigchld
  main : s.parent.main ≠ .reaping
  noneAlive : ∀ sub ∈ s.subs, sub.life ≠ .alive

theorem forgotten_of_not_announced (h : ¬Announced s) : Forgotten s := by
  obtain ⟨hz, hno⟩ := Classical.not_imp.mp h
  rw [not_or, not_or] at hno
  exact ⟨hz, hno.1, hno.2.1, fun sub hsub hl => hno.2.2 ⟨sub, hsub, hl⟩⟩

/-- The children that have been forgotten stay so. -/
theorem Forgotten.did (h : Forgotten s) (hd : Did s e s') (hok : closing.ok s e) :
    Forgotten s' := by
  cases hd with
  | @parent l hl =>
    refine ⟨h.zombie, fun hc => h.silent (coming_of_step hl hc), fun hm => ?_, h.noneAlive⟩
    rcases step_main s.parent l with he | rfl | rfl
    · exact h.main (he.symm.trans hm)
    · cases hm
    · cases hm
  | raiseParent => exact hok.2.elim
  | raiseChild => exact hok.2.elim
  | child hi halive => exact absurd halive (h.noneAlive _ (List.mem_of_getElem? hi))
  | childAct hi halive => exact absurd halive (h.noneAlive _ (List.mem_of_getElem? hi))
  | exit hi halive => exact absurd halive (h.noneAlive _ (List.mem_of_getElem? hi))
  | reap hm hh =>
    refine absurd (.inr (.inl (List.mem_append_left _ ?_))) h.silent
    rw [hh]
    exact List.mem_cons_self
  | term hm hh =>
    exact ⟨h.zombie, fun hc => h.silent (hc.of_act hh), by simp, h.noneAlive⟩
  | @kill i sub hm hi =>
    have hlife : (sub.raise .sigterm).life = sub.life := rfl
    refine ⟨(exists_set hi hlife).mpr h.zombie, h.silent, by simp, ?_⟩
    exact Threads.forall_set h.noneAlive (h.noneAlive sub (List.mem_of_getElem? hi))
  | skip => exact ⟨h.zombie, h.silent, by simp, h.noneAlive⟩
  | killed => exact ⟨h.zombie, h.silent, by simp, h.noneAlive⟩
  | waited hm => exact absurd hm h.main
  | noneLeft hm => exact absurd hm h.main

/-- The parent is behind its loop, and has waited for all. -/
def Pool.Finished (s : Pool) : Prop :=
  s.parent.main = .ended ∧ ∀ sub ∈ s.subs, sub.life = .waited

/-- The parent is in its loop, and has a child that it has not waited for. -/
def Unreaped (s : Pool) : Prop :=
  s.parent.main.catches = true ∧ ∃ sub ∈ s.subs, sub.life = .zombie

/-- The loop is only left with all children waited for. -/
theorem Forgotten.catches_did (h : Forgotten s) (hinv : Inv s)
    (hm : s.parent.main.catches = true) (hd : Did s e s') (hok : closing.ok s e) :
    s'.parent.main.catches = true := by
  cases hd with
  | @parent l hl =>
    show (s.parent.step l).main.catches = true
    rcases step_main s.parent l with he | rfl | rfl
    · rw [he]
      exact hm
    · rfl
    · obtain ⟨sub, hsub, hz⟩ := h.zombie
      exact absurd (hz.symm.trans (hinv.stop hl.2.1 sub hsub)) (by simp)
  | raiseParent => exact hok.2.elim
  | raiseChild => exact hok.2.elim
  | child => exact hm
  | childAct => exact hm
  | exit hi halive => exact absurd halive (h.noneAlive _ (List.mem_of_getElem? hi))
  | reap => rfl
  | term => rfl
  | kill => rfl
  | skip => rfl
  | killed => rfl
  | waited => exact hm
  | noneLeft => rfl

/-- A parent that has forgotten children runs for good. -/
theorem Forgotten.unreaped (h : Forgotten s) (hinv : Inv s) (hm : s.parent.main.catches = true)
    (hr : closing.Reaches s s') : Unreaped s' := by
  obtain ⟨is, hv, rfl⟩ := hr
  obtain ⟨hforgotten, _, hm⟩ := Machine.run_inv (M := closing)
    (I := fun s => Forgotten s ∧ Inv s ∧ s.parent.main.catches = true)
    (fun _ _ h hok => ⟨h.1.did (step_did hok.1) hok, h.2.1.did (step_did hok.1),
      h.1.catches_did h.2.1 h.2.2 (step_did hok.1) hok⟩) ⟨h, hinv, hm⟩ hv
  exact ⟨hm, hforgotten.zombie⟩

theorem Closing.finishes (h : Closing s) (hne : s.subs ≠ []) :
    closing.Ends s.toGo Pool.Finished s :=
  Machine.ends_of_measure (M := closing) (I := fun s => Closing s ∧ s.subs ≠ []) Pool.toGo
    (fun _ _ h hok => ⟨h.1.did (step_did hok.1) hok, did_ne_nil h.2 (step_did hok.1)⟩)
    (fun _ _ h hok => h.1.toGo_did (step_did hok.1) hok)
    (fun _ h hstuck => h.1.ends h.2 hstuck) ⟨h, hne⟩

/-- After a SIGTERM or SIGINT to a parent that has set its handlers, and with room in the pipes for
the signals that come of it, every schedule ends the whole pool, exactly if the parent will hear of
the children that have terminated before. If it will not, it runs for good. -/
theorem term_ends_iff (cap processNumber : Nat) (hpos : 0 < processNumber) (es : List Step)
    (x : Signal) (hx : x ≠ .sigchld) (hv : machine.Valid (start cap processNumber) es)
    (hm : (machine.run (start cap processNumber) es).parent.main.catches = true)
    (hroomy : Roomy (machine.run (start cap processNumber) (es ++ [.raise none x]))) :
    (closing.Ends (machine.run (start cap processNumber) (es ++ [.raise none x])).toGo
        Pool.Finished (machine.run (start cap processNumber) (es ++ [.raise none x])) ↔
      Announced (machine.run (start cap processNumber) (es ++ [.raise none x]))) ∧
    (¬Announced (machine.run (start cap processNumber) (es ++ [.raise none x])) →
      ∀ s, closing.Reaches (machine.run (start cap processNumber) (es ++ [.raise none x])) s →
        Unreaped s) := by
  have hrun := Machine.run_inv (M := machine)
    (I := fun s => Inv s ∧ s.subs.length = processNumber)
    (fun _ _ h hok => ⟨h.1.did (step_did hok), (did_length (step_did hok)).trans h.2⟩)
    ⟨start_inv cap processNumber hpos, List.length_replicate⟩ hv
  rw [Machine.run_append] at hroomy ⊢
  generalize machine.run (start cap processNumber) es = s at hm hrun hroomy
  obtain ⟨hinv, hlen⟩ := hrun
  have hd : Did s (.raise none x) (machine.run s [.raise none x]) := .raiseParent
  have hraise : machine.run s [.raise none x] =
      { s with parent := { s.parent with sig := s.parent.sig.raise x } } := by
    rcases raise_cases x s.parent with ⟨_, hs, _⟩ | ⟨_, hs, _⟩ | ⟨_, hp⟩
    · rw [hs] at hm
      cases hm
    · rw [hs] at hm
      cases hm
    · show { s with parent := s.parent.raise x } = _
      rw [hp]
  have hne : s.subs ≠ [] := List.ne_nil_of_length_pos (hlen ▸ hpos)
  have hcatches : (machine.run s [.raise none x]).parent.main.catches = true := by
    rw [hraise]
    exact hm
  have hforgotten : ¬Announced (machine.run s [.raise none x]) →
      ∀ s', closing.Reaches (machine.run s [.raise none x]) s' → Unreaped s' :=
    fun hno _ hr => (forgotten_of_not_announced hno).unreaped (hinv.did hd) hcatches hr
  refine ⟨⟨?_, ?_⟩, hforgotten⟩
  · intro hends
    by_contra hno
    obtain ⟨is, hv', _, hended, _⟩ := hends.extend [] trivial
    obtain ⟨hm', _⟩ := hforgotten hno _ ⟨is, hv', rfl⟩
    rw [List.nil_append] at hended
    rw [hended] at hm'
    cases hm'
  · intro hann
    have hclosing : Closing (machine.run s [.raise none x]) := by
      refine ⟨hinv.did hd, .inl hcatches, fun i sub _ _ => .inl (.inl ⟨x, hx, ?_⟩), hann, hroomy⟩
      · rw [hraise]
        exact SelfPipe.coming_raised
    exact hclosing.finishes (did_ne_nil hne hd)

/-- Both children terminate before the parent has set its handlers. -/
theorem term_ends_iff_unheard :
    (closing.Ends
        (machine.run (start 5 2) [.exit 0, .exit 1, .parent .setup, .raise none .sigterm]).toGo
        Pool.Finished
        (machine.run (start 5 2) [.exit 0, .exit 1, .parent .setup, .raise none .sigterm]) ↔
      Announced
        (machine.run (start 5 2) [.exit 0, .exit 1, .parent .setup, .raise none .sigterm])) ∧
    (¬Announced
        (machine.run (start 5 2) [.exit 0, .exit 1, .parent .setup, .raise none .sigterm]) →
      ∀ s, closing.Reaches
          (machine.run (start 5 2) [.exit 0, .exit 1, .parent .setup, .raise none .sigterm]) s →
        Unreaped s) := by
  refine term_ends_iff 5 2 (by decide) [.exit 0, .exit 1, .parent .setup] .sigterm (by decide)
    (by decide) (by decide) ⟨by decide, fun i sub hi => ?_⟩
  match i with
  | 0 =>
    cases hi
    decide
  | 1 =>
    cases hi
    decide
  | i + 2 => cases hi

end

end PoolEnd
end Unpvol1
