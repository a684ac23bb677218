import Unpvol1.Unp.Serv08
import Unpvol1.Lib.Progress

/-!
# Unp.Serv08Drains

What becomes of the descriptors in the ring of `serv08`. The ring and the threads are those of
`Unp.Serv08`.

* `draining` — the steps that are left once no connection comes and nobody wakes without a signal.
* `State.toGo` — how many of them are left at most.
* `ring_drains` — every schedule of them ends, with every accepted descriptor taken and served, or
  with the exit of main when the ring is full.
-/

namespace Unpvol1
namespace Serv08

def Step.drains : Step → Prop
  | .put _ => True
  | .lock _ => True
  | .served _ => True
  | _ => False

def draining : Machine State Step where
  step := step
  ok s i := machine.ok s i ∧ i.drains

/-- A descriptor in the ring sends a worker through `web_child` once. -/
def Worker.toGo : Worker → Nat
  | .locking => 1
  | .waiting => 0
  | .signalled => 1
  | .spurious => 1
  | .serving _ => 2

def State.toGo (s : State) : Nat :=
  2 * s.outstanding.length + 4 * s.main.held.length + (s.workers.map Worker.toGo).sum

/-- Main is back in `accept`, the workers sleep, and every descriptor has been taken. -/
structure Rest (s : State) : Prop where
  main : s.main = .accepting
  workers : ∀ w ∈ s.workers, w = .waiting
  done : s.taken.map Prod.snd = s.accepted

structure Running (nthreads : Nat) (s : State) : Prop where
  handed : Handed s
  signalled : Signalled s
  threads : s.workers.length = nthreads

section
variable {nthreads : Nat} {s : State} {j k : Nat}

theorem signal_length (k : Nat) (workers : List Worker) :
    (signal k workers).length = workers.length := by
  unfold signal
  split
  · exact List.length_set
  · rfl

/-- A waiter that is signalled has one step more to go. -/
theorem signal_toGo (k : Nat) (workers : List Worker) :
    ((signal k workers).map Worker.toGo).sum ≤ (workers.map Worker.toGo).sum + 1 := by
  unfold signal
  split
  · next hk =>
    have hmove := Threads.sum_move Worker.toGo hk .signalled
    have hwaiting : Worker.waiting.toGo = 0 := rfl
    have hsignalled : Worker.signalled.toGo = 1 := rfl
    omega
  · exact Nat.le_succ _

theorem putLocked_workers (k : Nat) (connfd : Int) (s : State) :
    (putLocked k connfd s).workers.length = s.workers.length ∧
      ((putLocked k connfd s).workers.map Worker.toGo).sum ≤
        (s.workers.map Worker.toGo).sum + 1 := by
  unfold putLocked
  simp only
  split
  · exact ⟨rfl, Nat.le_succ _⟩
  · exact ⟨signal_length k _, signal_toGo k _⟩

theorem putLocked_rest (k : Nat) (connfd : Int) (s : State) :
    (putLocked k connfd s).main = s.main ∧ (putLocked k connfd s).taken = s.taken ∧
      (putLocked k connfd s).puts = s.puts ++ [connfd] := by
  unfold putLocked
  simp only
  split
  · exact ⟨rfl, rfl, rfl⟩
  · exact ⟨rfl, rfl, rfl⟩

theorem thread_main_length (j : Nat) (s : State) :
    (thread_main j s).workers.length = s.workers.length := by
  unfold thread_main
  split
  · exact List.length_set
  · exact List.length_set

/-- The only exit left is main's. -/
theorem drains_exited {i : Step} (hok : draining.ok s i) :
    (draining.step s i).exited ≠ some .other := by
  obtain ⟨⟨hr, hen⟩, hdrains⟩ := hok
  have hnone : s.exited ≠ some .other := by simp [hr]
  cases i with
  | accept connfd => exact hdrains.elim
  | put k =>
    cases hm : s.main with
    | accepting => simp [enabled, hm] at hen
    | locking connfd =>
      have hput : draining.step s (.put k) = putLocked k connfd { s with main := .accepting } := by
        simp [draining, step, hm]
      rw [hput]
      unfold putLocked
      simp only
      split
      · simp
      · exact hnone
  | wake j => exact hdrains.elim
  | lock j =>
    show (thread_main j s).exited ≠ _
    unfold thread_main
    split
    · exact hnone
    · exact hnone
  | served j => exact hnone
  | exit => exact hdrains.elim

theorem Running.step {i : Step} (h : Running nthreads s) (hok : machine.ok s i) :
    Running nthreads (machine.step s i) := by
  refine ⟨handed_step h.handed hok, signalled_step h.signalled h.handed hok, ?_⟩
  have hlen := h.threads
  cases i with
  | accept connfd => exact hlen
  | put k =>
    cases hm : s.main with
    | accepting => simpa [machine, Serv08.step, hm] using hlen
    | locking connfd =>
      simpa [machine, Serv08.step, hm, (putLocked_workers k connfd _).1] using hlen
  | wake j => exact List.length_set.trans hlen
  | lock j => exact (thread_main_length j s).trans hlen
  | served j => exact List.length_set.trans hlen
  | exit => exact hlen

/-- The descriptor leaves main for the ring, and a waiter may be woken for it. -/
theorem put_toGo (h : Handed s) {connfd : Int} (hm : s.main = .locking connfd) (k : Nat) :
    (putLocked k connfd { s with main := .accepting }).toGo < s.toGo := by
  obtain ⟨hmain, htaken, hputs⟩ := putLocked_rest k connfd { s with main := .accepting }
  have hworkers := (putLocked_workers k connfd { s with main := .accepting }).2
  have hcounted := h.counted
  unfold State.toGo State.outstanding
  rw [hmain, htaken, hputs, hm]
  simp only [Main.held, List.length_drop, List.length_append, List.length_singleton,
    List.length_nil] at hworkers ⊢
  omega

/-- A worker at the mutex goes to sleep, or takes a descriptor off the ring. -/
theorem lock_toGo (h : Handed s) (hr : s.exited = none) {w : Worker} (hj : s.workers[j]? = some w)
    (hw : w.wantsLock = true) : (thread_main j s).toGo < s.toGo := by
  have hone : w.toGo = 1 := by
    cases w with
    | locking => rfl
    | signalled => rfl
    | spurious => rfl
    | waiting => cases hw
    | serving connfd => cases hw
  unfold thread_main
  split
  · have hmove := Threads.sum_move Worker.toGo hj .waiting
    have hwaiting : Worker.waiting.toGo = 0 := rfl
    show 2 * s.outstanding.length + 4 * s.main.held.length +
      ((s.workers.set j .waiting).map Worker.toGo).sum < _
    unfold State.toGo
    omega
  · next hne =>
    have hsome : 0 < s.outstanding.length :=
      List.length_pos_of_ne_nil fun he => hne ((h.empty_iff hr).mpr he)
    have hmove := Threads.sum_move Worker.toGo hj (.serving (s.clifd s.iget))
    have hserving : (Worker.serving (s.clifd s.iget)).toGo = 2 := rfl
    simp only [State.outstanding, List.length_drop] at hsome
    simp only [State.toGo, State.outstanding, List.length_drop, List.length_append,
      List.length_singleton]
    omega

/-- Every step gets the threads nearer to rest. -/
theorem toGo_step {i : Step} (h : Handed s) (hok : draining.ok s i) :
    (draining.step s i).toGo < s.toGo := by
  obtain ⟨⟨hr, hen⟩, hdrains⟩ := hok
  cases i with
  | accept connfd => exact hdrains.elim
  | put k =>
    cases hm : s.main with
    | accepting => simp [enabled, hm] at hen
    | locking connfd => simpa [draining, step, hm] using put_toGo h hm k
  | wake j => exact hdrains.elim
  | lock j =>
    obtain ⟨w, hj, hw⟩ := (Option.any_eq_true ..).mp hen
    exact lock_toGo h hr hj hw
  | served j =>
    obtain ⟨w, hj, hw⟩ := (Option.any_eq_true ..).mp hen
    have hmove := Threads.sum_move Worker.toGo hj .locking
    have htwo : w.toGo = 2 := by
      cases w with
      | serving connfd => rfl
      | locking => cases hw
      | waiting => cases hw
      | signalled => cases hw
      | spurious => cases hw
    have hlocking : Worker.locking.toGo = 1 := rfl
    show 2 * s.outstanding.length + 4 * s.main.held.length +
      ((s.workers.set j .locking).map Worker.toGo).sum < _
    unfold State.toGo
    omega
  | exit => exact hdrains.elim

/-- Where nobody can go on, all workers sleep, and then nothing is left in the ring. -/
theorem Running.rest (h : Running nthreads s) (hpos : 0 < nthreads) (hr : s.exited = none)
    (hstuck : draining.Stuck s) : Rest s := by
  have hmain : s.main = .accepting := by
    cases hm : s.main with
    | accepting => rfl
    | locking connfd =>
      by_cases hwait : .waiting ∈ s.workers
      · obtain ⟨k, hk⟩ := List.getElem?_of_mem hwait
        exact absurd ⟨⟨hr, by simp [enabled, hm, hk]⟩, trivial⟩ (hstuck (.put k))
      · exact absurd ⟨⟨hr, by simp [enabled, hm, hwait]⟩, trivial⟩ (hstuck (.put 0))
  have hworkers : ∀ w ∈ s.workers, w = .waiting := by
    intro w hw
    obtain ⟨j, hj⟩ := List.getElem?_of_mem hw
    have hlock : w.wantsLock = false := by
      refine Bool.eq_false_iff.mpr fun hwants => ?_
      exact hstuck (.lock j) ⟨⟨hr, (Option.any_eq_true ..).mpr ⟨w, hj, hwants⟩⟩, trivial⟩
    have hserve : w.isServing = false := by
      refine Bool.eq_false_iff.mpr fun hserves => ?_
      exact hstuck (.served j) ⟨⟨hr, (Option.any_eq_true ..).mpr ⟨w, hj, hserves⟩⟩, trivial⟩
    cases w with
    | waiting => rfl
    | locking => cases hlock
    | signalled => cases hlock
    | spurious => cases hlock
    | serving connfd => cases hserve
  have hlen : 0 < s.workers.length := h.threads ▸ hpos
  have hmem := List.getElem_mem hlen
  have hway : s.onTheWay = 0 := by
    refine List.countP_eq_zero.mpr fun w hw => ?_
    rw [hworkers w hw]
    exact Bool.false_ne_true
  have hempty : s.outstanding = [] := by
    have hle := h.signalled hr (hworkers _ hmem ▸ hmem)
    exact List.eq_nil_of_length_eq_zero (by omega)
  refine ⟨hmain, hworkers, ?_⟩
  have horder := h.handed.order
  rw [hempty, hmain, Main.held, List.append_nil, List.append_nil] at horder
  exact horder.symm

theorem start_running (clifd : Nat → Int) (nthreads : Nat) :
    Running nthreads (start clifd nthreads) :=
  ⟨start_handed clifd nthreads, start_signalled clifd nthreads, List.length_replicate⟩

theorem toGo_le (h : Handed s) : s.toGo ≤ 2 * MAXNCLI + 4 + 2 * s.workers.length := by
  have hfits := h.ring.fits
  have hheld : s.main.held.length ≤ 1 := by
    cases s.main with
    | accepting => exact Nat.zero_le 1
    | locking connfd => exact Nat.le_refl 1
  have hworkers : (s.workers.map Worker.toGo).sum ≤ 2 * s.workers.length := by
    induction s.workers with
    | nil => exact Nat.le_refl 0
    | cons w ws ih =>
      have hw : w.toGo ≤ 2 := by cases w <;> simp [Worker.toGo]
      rw [List.map_cons, List.sum_cons, List.length_cons]
      omega
  unfold State.toGo
  omega

/-- From any state of any run in which the process runs, every schedule without further connections
comes to rest, or main finds the ring full. -/
theorem ring_drains (clifd : Nat → Int) (nthreads : Nat) (hpos : 0 < nthreads) (is : List Step)
    (hv : machine.Valid (start clifd nthreads) is)
    (hr : (machine.run (start clifd nthreads) is).exited = none) :
    draining.Ends (2 * MAXNCLI + 4 + 2 * nthreads)
      (fun s => Rest s ∨ s.exited = some .overflow ∧ s.outstanding.length = MAXNCLI)
      (machine.run (start clifd nthreads) is) := by
  have hrun : Running nthreads (machine.run (start clifd nthreads) is) :=
    Machine.run_inv (fun _ _ h hok => h.step hok) (start_running clifd nthreads) hv
  have hends := Machine.ends_of_measure (M := draining)
    (I := fun s => Running nthreads s ∧ s.exited ≠ some .other)
    (Q := fun s => Rest s ∨ s.exited = some .overflow ∧ s.outstanding.length = MAXNCLI) State.toGo
    (fun _ _ h hok => ⟨h.1.step hok.1, drains_exited hok⟩)
    (fun _ _ h hok => toGo_step h.1.handed hok) ?_ ⟨hrun, by simp [hr]⟩
  · have hle := toGo_le hrun.handed
    rw [hrun.threads] at hle
    exact ⟨fun is hv => (hends.bounded is hv).trans hle, hends.final⟩
  · intro s h hstuck
    cases hex : s.exited with
    | none => exact .inl (h.1.rest hpos hex hstuck)
    | some e =>
      cases e with
      | overflow => exact .inr ⟨rfl, h.1.handed.overflow.mp hex⟩
      | other => exact absurd hex h.2

/-- Two workers sleep, one is woken for the first descriptor and none for the second. -/
theorem ring_drains_two :
    draining.Ends (2 * MAXNCLI + 4 + 2 * 2)
      (fun s => Rest s ∨ s.exited = some .overflow ∧ s.outstanding.length = MAXNCLI)
      (machine.run (start (fun _ => 0) 2)
        [.lock 0, .accept 7, .put 0, .lock 1, .accept 8, .put 0, .accept 9]) :=
  ring_drains _ 2 (by decide) _ (by decide) (by decide)

end

end Serv08
end Unpvol1
