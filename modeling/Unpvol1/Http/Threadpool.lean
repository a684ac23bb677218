import Unpvol1.Lib.Machine
import Unpvol1.Lib.Threads

/-!
# Http.Threadpool

The work queue of `threadpool`, shared by any number of threads that append requests and any number
of workers. What a thread does with the queue locked is one step; between the steps of one thread
any other may run.

* `appendLocked`, `popLocked` — the two critical sections.
* `machine`       — one step of one thread: a section, a `post`, a `wait` that may end early, a test
  of `m_stop`, a request processed.
* `Inv`           — what was popped and what is queued is what was pushed, in order, and every
  queued request has its unit of the semaphore, an appender about to post it, or a worker about to
  pop.
* `fifo`          — the invariant of every run (`inv_step`), read for the requests.
-/

namespace Unpvol1
namespace Threadpool

/-- The members of `threadpool` its functions use. NULL is a request like any other to the queue. -/
structure Pool (ρ : Type) where
  maxRequests : Nat
  workqueue : List (Option ρ)
  queuestat : Nat
  stop : Bool

/-- Where a caller of `append` is: outside it, or between `unlock` and `post`. -/
inductive Appender where
  | outside
  | unlocked
deriving DecidableEq

/-- Where a worker is in `run`. -/
inductive Worker (ρ : Type) where
  /-- At the test of `m_stop`. -/
  | loop
  | waiting
  /-- Between `wait` and the lock. -/
  | woken
  | processing (request : ρ)
  | returned
deriving DecidableEq

/-- The threads around a pool, the requests appended so far and those handed to a worker. -/
structure State (ρ : Type) where
  pool : Pool ρ
  appenders : List Appender
  workers : List (Worker ρ)
  pushed : List (Option ρ)
  popped : List (Nat × Option ρ)

inductive Step (ρ : Type) where
  | append (i : Nat) (request : Option ρ)
  | post (i : Nat)
  | test (j : Nat)
  | wait (j : Nat) (eintr : Bool)
  | pop (j : Nat)
  | processed (j : Nat)
  | stop

section
variable {ρ : Type}

/-- `append` while it holds the lock. -/
def appendLocked (p : Pool ρ) (request : Option ρ) : Pool ρ × Bool :=
  if p.workqueue.length > p.maxRequests then
    (p, false)
  else
    ({ p with workqueue := p.workqueue ++ [request] }, true)

/-- `run` while it holds the lock: the request it takes, if there is one. -/
def popLocked (p : Pool ρ) : Pool ρ × Option (Option ρ) :=
  match p.workqueue with
  | [] => (p, none)
  | request :: rest => ({ p with workqueue := rest }, some request)

/-- `sem_post`, which fails where the count would pass `SEM_VALUE_MAX`. -/
def post (semValueMax : Nat) (p : Pool ρ) : Pool ρ :=
  if p.queuestat < semValueMax then { p with queuestat := p.queuestat + 1 } else p

/-- `sem_wait`, once it returns; interrupted, it has not decremented the count. -/
def wait (p : Pool ρ) (eintr : Bool) : Pool ρ :=
  if eintr then p else { p with queuestat := p.queuestat - 1 }

def stepAppend (s : State ρ) (i : Nat) (request : Option ρ) : State ρ :=
  match appendLocked s.pool request with
  | (_, false) => s
  | (pool, true) =>
    { s with
      pool := pool
      appenders := s.appenders.set i .unlocked
      pushed := s.pushed ++ [request] }

def stepPop (s : State ρ) (j : Nat) : State ρ :=
  match popLocked s.pool with
  | (pool, none) => { s with pool := pool, workers := s.workers.set j .loop }
  | (pool, some none) =>
    { s with
      pool := pool
      workers := s.workers.set j .loop
      popped := s.popped ++ [(j, none)] }
  | (pool, some (some request)) =>
    { s with
      pool := pool
      workers := s.workers.set j (.processing request)
      popped := s.popped ++ [(j, some request)] }

def step (semValueMax : Nat) (s : State ρ) : Step ρ → State ρ
  | .append i request => stepAppend s i request
  | .post i => { s with pool := post semValueMax s.pool, appenders := s.appenders.set i .outside }
  | .test j => { s with workers := s.workers.set j (if s.pool.stop then .returned else .waiting) }
  | .wait j eintr => { s with pool := wait s.pool eintr, workers := s.workers.set j .woken }
  | .pop j => stepPop s j
  | .processed j => { s with workers := s.workers.set j .loop }
  | .stop => { s with pool := { s.pool with stop := true } }

/-- The steps a thread can take where it is. A `wait` ends when the count is positive, or early. -/
def enabled (s : State ρ) : Step ρ → Prop
  | .append i _ => s.appenders[i]? = some .outside
  | .post i => s.appenders[i]? = some .unlocked
  | .test j => s.workers[j]? = some .loop
  | .wait j eintr => s.workers[j]? = some .waiting ∧ (eintr = false → 0 < s.pool.queuestat)
  | .pop j => s.workers[j]? = some .woken
  | .processed j => ∃ request, s.workers[j]? = some (.processing request)
  | .stop => True

def machine (semValueMax : Nat) : Machine (State ρ) (Step ρ) where
  step := step semValueMax
  ok := enabled

/-- `threadpool( thread_number, max_requests )`, and the callers of `append`. -/
def start (appenders threadNumber maxRequests : Nat) : State ρ where
  pool := ⟨maxRequests, [], 0, false⟩
  appenders := List.replicate appenders .outside
  workers := List.replicate threadNumber .loop
  pushed := []
  popped := []

/-! ## The invariant -/

def Appender.owes : Appender → Bool
  | .unlocked => true
  | .outside => false

def Worker.owed : Worker ρ → Bool
  | .woken => true
  | _ => false

structure Inv (maxRequests : Nat) (s : State ρ) : Prop where
  bound : s.pool.maxRequests = maxRequests
  short : s.pool.workqueue.length ≤ maxRequests + 1
  order : s.popped.map Prod.snd ++ s.pool.workqueue = s.pushed
  covered : s.pool.workqueue.length ≤
    s.pool.queuestat + s.workers.countP Worker.owed + s.appenders.countP Appender.owes

theorem inv_start (appenders threadNumber maxRequests : Nat) :
    Inv maxRequests (start appenders threadNumber maxRequests : State ρ) := by
  constructor <;> simp [start]

theorem inv_append {maxRequests : Nat} {s : State ρ} (h : Inv maxRequests s) {i : Nat}
    (hi : s.appenders[i]? = some .outside) (request : Option ρ) :
    Inv maxRequests (stepAppend s i request) := by
  have hb := h.bound
  have hc := h.covered
  by_cases hfull : s.pool.workqueue.length > s.pool.maxRequests
  · simpa [stepAppend, appendLocked, hfull] using h
  · have hmove := Threads.count_move (p := Appender.owes) hi .unlocked
    simp only [Appender.owes, if_true, if_false, Bool.false_eq_true] at hmove
    simp only [stepAppend, appendLocked, hfull, if_false]
    constructor
    · exact hb
    · simp only [List.length_append, List.length_singleton]
      omega
    · simp only [← List.append_assoc, h.order]
    · simp only [List.length_append, List.length_singleton]
      omega

/-- A worker that leaves `woken` is owed a request no more. -/
theorem owed_leave {ws : List (Worker ρ)} {j : Nat} (hj : ws[j]? = some .woken) {w : Worker ρ}
    (hw : w.owed = false) : (ws.set j w).countP Worker.owed + 1 = ws.countP Worker.owed := by
  have := Threads.count_move (p := Worker.owed) hj w
  rwa [hw, if_neg Bool.false_ne_true] at this

theorem owed_stay {ws : List (Worker ρ)} {j : Nat} {v w : Worker ρ} (hj : ws[j]? = some v)
    (hv : v.owed = false) (hw : w.owed = false) :
    (ws.set j w).countP Worker.owed = ws.countP Worker.owed :=
  Threads.count_stay hj (hw.trans hv.symm)

theorem inv_pop {maxRequests : Nat} {s : State ρ} (h : Inv maxRequests s) {j : Nat}
    (hj : s.workers[j]? = some .woken) : Inv maxRequests (stepPop s j) := by
  have hs := h.short
  have ho := h.order
  have hc := h.covered
  cases hq : s.pool.workqueue with
  | nil =>
    simp only [stepPop, popLocked, hq]
    exact ⟨h.bound, hs, ho, by simp [hq]⟩
  | cons request rest =>
    rw [hq, List.length_cons] at hs hc
    rw [hq] at ho
    cases request with
    | none =>
      have hleave := owed_leave hj (w := .loop) rfl
      simp only [stepPop, popLocked, hq]
      refine ⟨h.bound, Nat.le_of_succ_le hs, by simp [← ho], ?_⟩
      dsimp only
      omega
    | some r =>
      have hleave := owed_leave hj (w := .processing r) rfl
      simp only [stepPop, popLocked, hq]
      refine ⟨h.bound, Nat.le_of_succ_le hs, by simp [← ho], ?_⟩
      dsimp only
      omega

/-- What is posted covers the request the appender pushed, also where the count is at its limit:
the queue is no longer than that. -/
theorem inv_post {semValueMax maxRequests : Nat} (hsem : maxRequests < semValueMax) {s : State ρ}
    (h : Inv maxRequests s) {i : Nat} (hi : s.appenders[i]? = some .unlocked) :
    Inv maxRequests
      { s with pool := post semValueMax s.pool, appenders := s.appenders.set i .outside } := by
  have hs := h.short
  have hc := h.covered
  have hmove := Threads.count_move (p := Appender.owes) hi .outside
  simp only [Appender.owes, if_true, if_false, Bool.false_eq_true] at hmove
  by_cases hlt : s.pool.queuestat < semValueMax
  · simp only [post, hlt, if_true]
    refine ⟨h.bound, hs, h.order, ?_⟩
    dsimp only
    omega
  · simp only [post, hlt, if_false]
    refine ⟨h.bound, hs, h.order, ?_⟩
    dsimp only
    omega

theorem inv_wait {maxRequests : Nat} {s : State ρ} (h : Inv maxRequests s) {j : Nat} {eintr : Bool}
    (hj : s.workers[j]? = some .waiting) (hpos : eintr = false → 0 < s.pool.queuestat) :
    Inv maxRequests { s with pool := wait s.pool eintr, workers := s.workers.set j .woken } := by
  have hc := h.covered
  have hmove := Threads.count_move (p := Worker.owed) hj .woken
  simp only [Worker.owed, if_true, if_false, Bool.false_eq_true] at hmove
  cases eintr with
  | true =>
    refine ⟨h.bound, h.short, h.order, ?_⟩
    simp only [wait, if_true]
    omega
  | false =>
    have := hpos rfl
    refine ⟨h.bound, h.short, h.order, ?_⟩
    simp only [wait, if_false, Bool.false_eq_true]
    omega

theorem inv_step {semValueMax maxRequests : Nat} (hsem : maxRequests < semValueMax) (s : State ρ)
    (st : Step ρ) (h : Inv maxRequests s) (hok : (machine semValueMax).ok s st) :
    Inv maxRequests ((machine semValueMax).step s st) := by
  have hc := h.covered
  cases st with
  | append i request => exact inv_append h hok request
  | post i => exact inv_post hsem h hok
  | test j =>
    have hw : (if s.pool.stop then .returned else .waiting : Worker ρ).owed = false := by
      cases s.pool.stop <;> rfl
    have hstay := owed_stay hok rfl hw
    refine ⟨h.bound, h.short, h.order, ?_⟩
    simp only [machine, step, hstay]
    exact hc
  | wait j eintr => exact inv_wait h hok.1 hok.2
  | pop j => exact inv_pop h hok
  | processed j =>
    obtain ⟨request, hj⟩ := hok
    have hstay := owed_stay hj rfl (w := .loop) rfl
    refine ⟨h.bound, h.short, h.order, ?_⟩
    simp only [machine, step, hstay]
    exact hc
  | stop => exact ⟨h.bound, h.short, h.order, hc⟩

/-- Whatever the threads do, the requests popped are the first of those appended, in the order they
were appended, the rest are in the queue, and no queued request is left without a unit of the
semaphore, an appender about to post one or a worker about to pop. A semaphore can count up to the
length of the queue. -/
theorem fifo (semValueMax appenders threadNumber maxRequests : Nat)
    (hsem : maxRequests < semValueMax) (steps : List (Step ρ))
    (hv : (machine semValueMax).Valid (start appenders threadNumber maxRequests) steps) :
    (machine semValueMax).Always
      (fun s => s.popped.map Prod.snd <+: s.pushed ∧
        s.popped.map Prod.snd ++ s.pool.workqueue = s.pushed ∧
        s.pool.workqueue.length ≤
          s.pool.queuestat + s.workers.countP Worker.owed + s.appenders.countP Appender.owes)
      (start appenders threadNumber maxRequests) steps := by
  have hinv := Machine.always_inv (inv_step hsem) (inv_start appenders threadNumber maxRequests) hv
  refine hinv.imp ?_
  intro s h
  exact ⟨⟨_, h.order⟩, h.order, h.covered⟩

/-- Two appenders and a worker: a NULL request, a `wait` that ends early, another that does not. -/
theorem fifo_run :
    (machine 2147483647).Always
      (fun s : State Nat => s.popped.map Prod.snd <+: s.pushed ∧
        s.popped.map Prod.snd ++ s.pool.workqueue = s.pushed ∧
        s.pool.workqueue.length ≤
          s.pool.queuestat + s.workers.countP Worker.owed + s.appenders.countP Appender.owes)
      (start 2 1 10000)
      [.test 0, .append 1 none, .append 0 (some 7), .wait 0 true, .pop 0, .post 1, .test 0,
        .wait 0 false, .pop 0, .post 0, .processed 0] := by
  refine fifo 2147483647 2 1 10000 (by decide) _ ?_
  simp [Machine.Valid, machine, enabled, step, start, stepAppend, appendLocked, stepPop, popLocked,
    wait, post]

/-! ## The limit of the queue -/

/-- `append` in a step does with the queue what its limit asks: it refuses the request and leaves
the queue alone just when the queue holds `maxRequests`. -/
def Refuses (maxRequests : Nat) (s : State ρ) : Step ρ → Prop
  | .append _ request =>
    ((appendLocked s.pool request).2 = false ∧
      (appendLocked s.pool request).1.workqueue = s.pool.workqueue) ↔
    s.pool.workqueue.length = maxRequests
  | _ => True

/-- An `append` finds fewer than `maxRequests` requests in the queue. -/
def FindsRoom (maxRequests : Nat) (s : State ρ) : Step ρ → Prop
  | .append _ _ => s.pool.workqueue.length < maxRequests
  | _ => True

theorem appendLocked_room {p : Pool ρ} (h : p.workqueue.length ≤ p.maxRequests)
    (request : Option ρ) :
    appendLocked p request = ({ p with workqueue := p.workqueue ++ [request] }, true) := by
  unfold appendLocked
  rw [if_neg (by omega)]

/-- From within the limit `append` takes whatever it is given, at the limit too. -/
theorem stepAppend_room {s : State ρ} (h : s.pool.workqueue.length ≤ s.pool.maxRequests) (i : Nat)
    (request : Option ρ) :
    stepAppend s i request =
      { s with
        pool := { s.pool with workqueue := s.pool.workqueue ++ [request] }
        appenders := s.appenders.set i .unlocked
        pushed := s.pushed ++ [request] } := by
  unfold stepAppend
  rw [appendLocked_room h]

theorem popLocked_shorter (p : Pool ρ) :
    (popLocked p).1.maxRequests = p.maxRequests ∧
      (popLocked p).1.workqueue.length ≤ p.workqueue.length := by
  unfold popLocked
  cases hq : p.workqueue with
  | nil => exact ⟨rfl, Nat.le_of_eq (congrArg List.length hq)⟩
  | cons request rest => exact ⟨rfl, Nat.le_succ _⟩

theorem stepPop_pool (s : State ρ) (j : Nat) : (stepPop s j).pool = (popLocked s.pool).1 := by
  unfold stepPop
  rcases popLocked s.pool with ⟨pool, _ | _ | request⟩ <;> rfl

/-- A step that is no `append` leaves the limit as it is and no more in the queue. -/
theorem step_shorter (semValueMax : Nat) (s : State ρ) (st : Step ρ)
    (hst : ∀ i request, st ≠ .append i request) :
    (step semValueMax s st).pool.maxRequests = s.pool.maxRequests ∧
      (step semValueMax s st).pool.workqueue.length ≤ s.pool.workqueue.length := by
  cases st with
  | append i request => exact absurd rfl (hst i request)
  | pop j =>
    simp only [step, stepPop_pool]
    exact popLocked_shorter s.pool
  | post i =>
    simp only [step, post]
    split
    · exact ⟨rfl, Nat.le_refl _⟩
    · exact ⟨rfl, Nat.le_refl _⟩
  | wait j eintr =>
    cases eintr with
    | false => exact ⟨rfl, Nat.le_refl _⟩
    | true => exact ⟨rfl, Nat.le_refl _⟩
  | test j => exact ⟨rfl, Nat.le_refl _⟩
  | processed j => exact ⟨rfl, Nat.le_refl _⟩
  | stop => exact ⟨rfl, Nat.le_refl _⟩

theorem maxRequests_step (semValueMax : Nat) (s : State ρ) (st : Step ρ) :
    (step semValueMax s st).pool.maxRequests = s.pool.maxRequests := by
  cases st with
  | append i request =>
    simp only [step, stepAppend, appendLocked]
    split
    · rfl
    · next h =>
      split at h
      · cases h
      · cases h
        rfl
  | _ =>
    refine (step_shorter semValueMax s _ ?_).1
    intro i request h
    cases h

/-- One step: the queue stays within the limit, and is refused requests as the limit asks, just when
no `append` finds the queue at the limit. -/
theorem short_step_iff {semValueMax maxRequests : Nat} {s : State ρ}
    (hb : s.pool.maxRequests = maxRequests) (hs : s.pool.workqueue.length ≤ maxRequests)
    (st : Step ρ) :
    ((step semValueMax s st).pool.workqueue.length ≤ maxRequests ∧ Refuses maxRequests s st) ↔
      FindsRoom maxRequests s st := by
  cases st with
  | append i request =>
    have hroom : s.pool.workqueue.length ≤ s.pool.maxRequests := hb ▸ hs
    simp only [Refuses, FindsRoom, step, stepAppend_room hroom, appendLocked_room hroom,
      List.length_append, List.length_singleton, Bool.true_eq_false, false_and, false_iff]
    omega
  | _ =>
    refine iff_of_true ⟨Nat.le_trans (step_shorter semValueMax s _ ?_).2 hs, trivial⟩ trivial
    intro i request h
    cases h

/-- The queue never holds more than `maxRequests` requests, and `append` refuses just where it holds
that many, in exactly the runs in which no `append` finds it holding that many. -/
theorem limit_iff (semValueMax appenders threadNumber maxRequests : Nat) (steps : List (Step ρ))
    (hv : (machine semValueMax).Valid (start appenders threadNumber maxRequests) steps) :
    ((machine semValueMax).Always (fun s => s.pool.workqueue.length ≤ maxRequests)
        (start appenders threadNumber maxRequests) steps ∧
      (machine semValueMax).Each (Refuses maxRequests)
        (start appenders threadNumber maxRequests) steps) ↔
    (machine semValueMax).Each (FindsRoom maxRequests)
      (start appenders threadNumber maxRequests) steps := by
  refine Machine.always_and_each_iff (I := fun s => s.pool.maxRequests = maxRequests)
    ?_ ?_ rfl (Nat.zero_le _) hv
  · intro s st hb _
    exact (maxRequests_step semValueMax s st).trans hb
  · intro s st hb _ hs
    exact short_step_iff hb hs st

/-- Two callers and a limit of one: the first request fills the queue, the second is taken too. -/
theorem limit_passed :
    (machine 2147483647).Valid (start 2 1 1 : State Nat) [.append 0 (some 7), .append 1 (some 8)] ∧
      ¬ ((machine 2147483647).Always (fun s => s.pool.workqueue.length ≤ 1)
          (start 2 1 1 : State Nat) [.append 0 (some 7), .append 1 (some 8)] ∧
        (machine 2147483647).Each (Refuses 1)
          (start 2 1 1 : State Nat) [.append 0 (some 7), .append 1 (some 8)]) := by
  have hv : (machine 2147483647).Valid (start 2 1 1 : State Nat)
      [.append 0 (some 7), .append 1 (some 8)] := by
    simp [Machine.Valid, machine, enabled, step, start, stepAppend, appendLocked]
  refine ⟨hv, ?_⟩
  rintro ⟨halways, _⟩
  have hlast := halways.last
  simp [Machine.run, machine, step, start, stepAppend, appendLocked] at hlast

/-- With a limit of two the same run keeps within it. -/
theorem limit_kept :
    ((machine 2147483647).Always (fun s => s.pool.workqueue.length ≤ 2)
        (start 2 1 2 : State Nat) [.append 0 (some 7), .append 1 (some 8)] ∧
      (machine 2147483647).Each (Refuses 2)
        (start 2 1 2 : State Nat) [.append 0 (some 7), .append 1 (some 8)]) := by
  refine (limit_iff 2147483647 2 1 2 _ ?_).mpr ?_
  · simp [Machine.Valid, machine, enabled, step, start, stepAppend, appendLocked]
  · simp [Machine.Each, FindsRoom, machine, step, start, stepAppend, appendLocked]

end

end Threadpool
end Unpvol1
