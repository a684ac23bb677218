import Unpvol1.Http.Threadpool
import Unpvol1.Lib.Progress

/-!
# Http.PoolDrains

What becomes of the requests in the queue of `threadpool`. The queue, the semaphore and the threads
are those of `Http.Threadpool`.

* `draining` — the steps that are left once nobody calls `append` and no `sem_wait` is interrupted.
* `State.toGo` — how many of them are left at most.
* `pool_drains` — every schedule of them ends, with every request popped and processed, unless
  `m_stop` let all workers return before.
-/

namespace Unpvol1
namespace Threadpool

section
variable {ρ : Type}

def Step.drains : Step ρ → Prop
  | .append _ _ => False
  | .wait _ eintr => eintr = false
  | .stop => False
  | _ => True

def draining (semValueMax : Nat) : Machine (State ρ) (Step ρ) where
  step := step semValueMax
  ok s st := enabled s st ∧ st.drains

/-- A unit of the semaphore sends a worker round the loop of `run` once. -/
def Worker.toGo : Worker ρ → Nat
  | .loop => 1
  | .waiting => 0
  | .woken => 3
  | .processing _ => 2
  | .returned => 0

def State.toGo (s : State ρ) : Nat :=
  4 * s.pool.queuestat + 5 * s.appenders.countP Appender.owes + (s.workers.map Worker.toGo).sum

/-- Nobody is on the way, and the requests are all handed on unless nobody is left to take them. -/
structure Rest (s : State ρ) : Prop where
  appenders : ∀ a ∈ s.appenders, a = .outside
  workers : ∀ w ∈ s.workers, w = .waiting ∨ w = .returned
  done : s.popped.map Prod.snd = s.pushed ∨ s.pool.stop = true ∧ ∀ w ∈ s.workers, w = .returned

/-- `Inv`, and workers return only for `m_stop`. -/
structure Running (threadNumber maxRequests : Nat) (s : State ρ) : Prop where
  inv : Inv maxRequests s
  threads : s.workers.length = threadNumber
  returned : .returned ∈ s.workers → s.pool.stop = true

variable {semValueMax threadNumber maxRequests : Nat} {s : State ρ} {j : Nat}

/-- The worker that pops goes back to the loop or has a request. -/
theorem stepPop_workers (s : State ρ) (j : Nat) :
    ∃ w, (stepPop s j).workers = s.workers.set j w ∧ (stepPop s j).appenders = s.appenders ∧
      (stepPop s j).pool.stop = s.pool.stop ∧ (stepPop s j).pool.queuestat = s.pool.queuestat ∧
      w.toGo < 3 ∧ w ≠ .returned := by
  cases hq : s.pool.workqueue with
  | nil => exact ⟨.loop, by simp [stepPop, popLocked, hq, Worker.toGo]⟩
  | cons request rest =>
    cases request with
    | none => exact ⟨.loop, by simp [stepPop, popLocked, hq, Worker.toGo]⟩
    | some r => exact ⟨.processing r, by simp [stepPop, popLocked, hq, Worker.toGo]⟩

theorem stepAppend_workers (s : State ρ) (i : Nat) (request : Option ρ) :
    (stepAppend s i request).workers = s.workers ∧
      (stepAppend s i request).pool.stop = s.pool.stop := by
  unfold stepAppend appendLocked
  split
  · exact ⟨rfl, rfl⟩
  · next heq =>
    split at heq
    · cases heq
    · cases heq
      exact ⟨rfl, rfl⟩

theorem Running.step (hsem : maxRequests < semValueMax) {st : Step ρ}
    (h : Running threadNumber maxRequests s) (hok : (machine semValueMax).ok s st) :
    Running threadNumber maxRequests ((machine semValueMax).step s st) := by
  have hinv := inv_step hsem s st h.inv hok
  have hlen := h.threads
  have hret := h.returned
  cases st with
  | append i request =>
    obtain ⟨hw, hs⟩ := stepAppend_workers s i request
    refine ⟨hinv, ?_, ?_⟩
    · show (stepAppend s i request).workers.length = _
      rw [hw]
      exact hlen
    · show .returned ∈ (stepAppend s i request).workers → _
      rw [hw]
      exact fun hmem => hs.trans (hret hmem)
  | post i =>
    refine ⟨hinv, hlen, fun hmem => ?_⟩
    show (post semValueMax s.pool).stop = true
    unfold post
    split
    · exact hret hmem
    · exact hret hmem
  | test j =>
    refine ⟨hinv, List.length_set.trans hlen, fun hmem => ?_⟩
    show s.pool.stop = true
    cases hs : s.pool.stop with
    | true => rfl
    | false =>
      have hset : .returned ∈ s.workers.set j .waiting := by
        simpa [machine, Threadpool.step, hs] using hmem
      have hstop := hret (Threads.mem_of_mem_set (fun he => (by cases he)) hset)
      exact absurd (hs.symm.trans hstop) Bool.false_ne_true
  | wait j eintr =>
    refine ⟨hinv, List.length_set.trans hlen, fun hmem => ?_⟩
    have hstop := hret (Threads.mem_of_mem_set (fun he => (by cases he)) hmem)
    cases eintr with
    | false => exact hstop
    | true => exact hstop
  | pop j =>
    obtain ⟨w, hw, _, hs, _, _, hne⟩ := stepPop_workers s j
    refine ⟨hinv, ?_, ?_⟩
    · show (stepPop s j).workers.length = _
      rw [hw]
      exact List.length_set.trans hlen
    · show .returned ∈ (stepPop s j).workers → _
      rw [hw]
      exact fun hmem => hs.trans (hret (Threads.mem_of_mem_set hne hmem))
  | processed j =>
    exact ⟨hinv, List.length_set.trans hlen,
      fun hmem => hret (Threads.mem_of_mem_set (fun he => (by cases he)) hmem)⟩
  | stop => exact ⟨hinv, hlen, fun _ => rfl⟩

/-- A worker that moves takes what it has to go with it. -/
theorem toGo_move {t : State ρ} {v w : Worker ρ} (hj : s.workers[j]? = some v)
    (hw : t.workers = s.workers.set j w) (ha : t.appenders = s.appenders) :
    t.toGo + v.toGo + 4 * s.pool.queuestat = s.toGo + w.toGo + 4 * t.pool.queuestat := by
  have hmove := Threads.sum_move Worker.toGo hj w
  unfold State.toGo
  rw [hw, ha]
  omega

/-- Every step gets the threads nearer to rest. -/
theorem toGo_step {st : Step ρ} (hok : (draining semValueMax).ok s st) :
    ((draining semValueMax).step s st).toGo < s.toGo := by
  obtain ⟨hen, hdrains⟩ := hok
  cases st with
  | append i request => exact hdrains.elim
  | post i =>
    have hmove := Threads.count_move (p := Appender.owes) hen .outside
    simp only [Appender.owes, if_true, if_false, Bool.false_eq_true] at hmove
    have hpost : (post semValueMax s.pool).queuestat ≤ s.pool.queuestat + 1 := by
      unfold post
      split
      · exact Nat.le_refl _
      · exact Nat.le_succ _
    show 4 * (post semValueMax s.pool).queuestat +
      5 * (s.appenders.set i .outside).countP Appender.owes + (s.workers.map Worker.toGo).sum < _
    unfold State.toGo
    omega
  | test j =>
    have hmove := toGo_move (t := (draining semValueMax).step s (.test j)) hen rfl rfl
    have hzero : (if s.pool.stop then .returned else .waiting : Worker ρ).toGo = 0 := by
      cases s.pool.stop with
      | false => rfl
      | true => rfl
    have hloop : (Worker.loop : Worker ρ).toGo = 1 := rfl
    have hstat : ((draining semValueMax).step s (.test j)).pool.queuestat = s.pool.queuestat := rfl
    omega
  | wait j eintr =>
    have hfalse : eintr = false := hdrains
    subst hfalse
    have hmove := toGo_move (t := (draining semValueMax).step s (.wait j false)) hen.1 rfl rfl
    have hwaiting : (Worker.waiting : Worker ρ).toGo = 0 := rfl
    have hwoken : (Worker.woken : Worker ρ).toGo = 3 := rfl
    have hstat : ((draining semValueMax).step s (.wait j false)).pool.queuestat =
      s.pool.queuestat - 1 := rfl
    have hunit := hen.2 rfl
    omega
  | pop j =>
    obtain ⟨w, hw, ha, _, hstat, hlt, _⟩ := stepPop_workers s j
    have hmove := toGo_move (t := stepPop s j) hen hw ha
    have hwoken : (Worker.woken : Worker ρ).toGo = 3 := rfl
    show (stepPop s j).toGo < _
    omega
  | processed j =>
    obtain ⟨request, hj⟩ := hen
    have hmove := toGo_move (t := (draining semValueMax).step s (.processed j)) hj rfl rfl
    have hloop : (Worker.loop : Worker ρ).toGo = 1 := rfl
    have hprocessing : (Worker.processing request).toGo = 2 := rfl
    have hstat : ((draining semValueMax).step s (.processed j)).pool.queuestat =
      s.pool.queuestat := rfl
    omega
  | stop => exact hdrains.elim

/-- Where nobody can go on the semaphore is at 0, or nobody waits for it; a request still queued
would be covered by one of these, an appender or a worker about to pop. -/
theorem Running.rest (h : Running threadNumber maxRequests s) (hpos : 0 < threadNumber)
    (hstuck : (draining semValueMax).Stuck s) : Rest s := by
  have happ : ∀ a ∈ s.appenders, a = .outside := by
    intro a ha
    obtain ⟨i, hi⟩ := List.getElem?_of_mem ha
    cases a with
    | outside => rfl
    | unlocked => exact absurd ⟨hi, trivial⟩ (hstuck (.post i))
  have hworkers : ∀ w ∈ s.workers, w = .waiting ∨ w = .returned := by
    intro w hw
    obtain ⟨j, hj⟩ := List.getElem?_of_mem hw
    cases w with
    | loop => exact absurd ⟨hj, trivial⟩ (hstuck (.test j))
    | waiting => exact .inl rfl
    | woken => exact absurd ⟨hj, trivial⟩ (hstuck (.pop j))
    | processing request => exact absurd ⟨⟨request, hj⟩, trivial⟩ (hstuck (.processed j))
    | returned => exact .inr rfl
  refine ⟨happ, hworkers, ?_⟩
  by_cases hwait : .waiting ∈ s.workers
  · left
    obtain ⟨j, hj⟩ := List.getElem?_of_mem hwait
    have hstat : s.pool.queuestat = 0 := by
      refine Nat.eq_zero_of_not_pos fun hunit => ?_
      exact hstuck (.wait j false) ⟨⟨hj, fun _ => hunit⟩, rfl⟩
    have hnone : s.appenders.countP Appender.owes = 0 := by
      refine List.countP_eq_zero.mpr fun a ha => ?_
      rw [happ a ha]
      decide
    have hidle : s.workers.countP Worker.owed = 0 := by
      refine List.countP_eq_zero.mpr fun w hw => ?_
      rcases hworkers w hw with rfl | rfl
      · exact Bool.false_ne_true
      · exact Bool.false_ne_true
    have hcovered := h.inv.covered
    rw [hstat, hnone, hidle] at hcovered
    have hempty : s.pool.workqueue = [] := List.eq_nil_of_length_eq_zero (by omega)
    have horder := h.inv.order
    rw [hempty, List.append_nil] at horder
    exact horder
  · right
    have hall : ∀ w ∈ s.workers, w = .returned := by
      intro w hw
      rcases hworkers w hw with rfl | rfl
      · exact absurd hw hwait
      · rfl
    have hlen : 0 < s.workers.length := h.threads ▸ hpos
    have hmem := List.getElem_mem hlen
    exact ⟨h.returned (hall _ hmem ▸ hmem), hall⟩

theorem start_running (appenders threadNumber maxRequests : Nat) :
    Running threadNumber maxRequests (start appenders threadNumber maxRequests : State ρ) where
  inv := inv_start appenders threadNumber maxRequests
  threads := List.length_replicate
  returned := by
    intro hmem
    have hloop := List.eq_of_mem_replicate hmem
    cases hloop

/-- `toGo` counts three for a worker at most. -/
theorem toGo_le (s : State ρ) :
    s.toGo ≤ 4 * s.pool.queuestat + 5 * s.appenders.length + 3 * s.workers.length := by
  have happ : s.appenders.countP Appender.owes ≤ s.appenders.length := List.countP_le_length
  have hworkers : (s.workers.map Worker.toGo).sum ≤ 3 * s.workers.length := by
    induction s.workers with
    | nil => exact Nat.le_refl 0
    | cons w ws ih =>
      have hw : w.toGo ≤ 3 := by cases w <;> simp [Worker.toGo]
      rw [List.map_cons, List.sum_cons, List.length_cons]
      omega
  unfold State.toGo
  omega

/-- From any state of any run every schedule without further calls of `append` comes to rest. -/
theorem pool_drains (semValueMax appenders threadNumber maxRequests : Nat)
    (hsem : maxRequests < semValueMax) (hpos : 0 < threadNumber) (steps : List (Step ρ))
    (hv : (machine semValueMax).Valid (start appenders threadNumber maxRequests) steps) :
    let s := (machine semValueMax).run (start appenders threadNumber maxRequests) steps
    (draining semValueMax).Ends
      (4 * s.pool.queuestat + 5 * s.appenders.length + 3 * s.workers.length) Rest s := by
  intro s
  have hrun : Running threadNumber maxRequests s :=
    Machine.run_inv (fun _ _ h hok => h.step hsem hok)
      (start_running appenders threadNumber maxRequests) hv
  have hends := Machine.ends_of_measure (M := draining semValueMax)
    (I := Running threadNumber maxRequests) State.toGo (fun _ _ h hok => h.step hsem hok.1)
    (fun _ _ _ hok => toGo_step hok) (fun _ h hstuck => h.rest hpos hstuck) hrun
  exact ⟨fun is hv => Nat.le_trans (hends.bounded is hv) (toGo_le s), hends.final⟩

/-- A `wait` ends early and takes the request without its unit, which sends a worker round for
nothing later. -/
theorem pool_drains_early :
    let s := (machine 2147483647).run (start 2 2 10000 : State Nat)
      [.test 0, .append 0 (some 7), .wait 0 true, .pop 0, .post 0, .append 1 (some 8)]
    (draining 2147483647).Ends
      (4 * s.pool.queuestat + 5 * s.appenders.length + 3 * s.workers.length) Rest s := by
  refine pool_drains 2147483647 2 2 10000 (by decide) (by decide) _ ?_
  simp [Machine.Valid, machine, enabled, step, start, stepAppend, appendLocked, stepPop, popLocked,
    wait, post]

end

end Threadpool
end Unpvol1
