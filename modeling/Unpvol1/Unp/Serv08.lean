import Unpvol1.Lib.Machine
import Unpvol1.Lib.Ring
import Unpvol1.Lib.Threads

/-!
# Unp.Serv08

The prethreaded server `serv08` (`30chp/serv08.c`): main hands accepted descriptors to the workers
through the ring `clifd`. What a thread does with `clifd_mutex` locked is one step; between the
steps of one thread any other may run.

* `putLocked`, `thread_main` — the two critical sections.
* `machine`   — one step of one thread; a wait may end without a signal.
* `Handed`    — the ring holds what is put and not taken, and workers took it in order.
* `Signalled` — each queued descriptor has a signalled worker on its way, unless nobody waits.
-/

namespace Unpvol1
namespace Serv08

def MAXNCLI : Nat := 32

inductive Main where
  /-- In `accept`. -/
  | accepting
  /-- Between `accept` and the lock. -/
  | locking (connfd : Int)
deriving DecidableEq

inductive Worker where
  /-- About to lock, at the top of the loop. -/
  | locking
  /-- Asleep in `pthread_cond_wait`. -/
  | waiting
  /-- Woken by a signal, on its way back to the mutex. -/
  | signalled
  /-- Awake without a signal, on its way back to the mutex. -/
  | spurious
  /-- In `web_child`. -/
  | serving (connfd : Int)
deriving DecidableEq

/-- How the process ended. `overflow` is the `exit` of main under `iput == iget`; `other` the ones
in `web_child` and `sig_int`. -/
inductive Exit where
  | overflow
  | other
deriving DecidableEq

/-- `puts` is what main has put into the ring so far, `taken` who took what. -/
structure State where
  clifd : Nat → Int
  iget : Nat
  iput : Nat
  main : Main
  workers : List Worker
  exited : Option Exit
  accepted : List Int
  puts : List Int
  taken : List (Nat × Int)

inductive Step where
  | accept (connfd : Int)
  /-- Main's critical section; `k` is the waiter its signal wakes, if there is one. -/
  | put (k : Nat)
  /-- The wait of worker `j` ends without a signal. -/
  | wake (j : Nat)
  /-- The critical section of worker `j`, from the lock or from inside the wait. -/
  | lock (j : Nat)
  /-- Worker `j` has served and closed its client. -/
  | served (j : Nat)
  | exit
deriving DecidableEq

/-! ## The critical sections -/

/-- `pthread_cond_signal`. -/
def signal (k : Nat) (workers : List Worker) : List Worker :=
  if workers[k]? = some .waiting then workers.set k .signalled else workers

def putLocked (k : Nat) (connfd : Int) (s : State) : State :=
  let s' := { s with
    clifd := Function.update s.clifd s.iput connfd
    iput := Ring.next MAXNCLI s.iput
    puts := s.puts ++ [connfd] }
  if s'.iput = s'.iget then { s' with exited := some .overflow }
  else { s' with workers := signal k s'.workers }

/-- `thread_main` from the lock to the wait or to the unlock. -/
def thread_main (j : Nat) (s : State) : State :=
  if s.iget = s.iput then { s with workers := s.workers.set j .waiting }
  else
    let connfd := s.clifd s.iget
    { s with
      iget := Ring.next MAXNCLI s.iget
      workers := s.workers.set j (.serving connfd)
      taken := s.taken ++ [(j, connfd)] }

/-! ## The machine -/

def step (s : State) : Step → State
  | .accept connfd => { s with main := .locking connfd, accepted := s.accepted ++ [connfd] }
  | .put k =>
    match s.main with
    | .accepting => s
    | .locking connfd => putLocked k connfd { s with main := .accepting }
  | .wake j => { s with workers := s.workers.set j .spurious }
  | .lock j => thread_main j s
  | .served j => { s with workers := s.workers.set j .locking }
  | .exit => { s with exited := some .other }

/-- The places from which a worker goes for the mutex. -/
def Worker.wantsLock : Worker → Bool
  | .locking => true
  | .waiting => false
  | .signalled => true
  | .spurious => true
  | .serving _ => false

def Worker.isServing : Worker → Bool
  | .serving _ => true
  | _ => false

/-- What a thread can do where it is. A signal wakes a waiter whenever there is one. -/
def enabled (s : State) : Step → Bool
  | .accept _ => s.main = .accepting
  | .put k => s.main ≠ .accepting ∧ (.waiting ∈ s.workers → s.workers[k]? = some .waiting)
  | .wake j => s.workers[j]? = some .waiting
  | .lock j => (s.workers[j]?).any Worker.wantsLock
  | .served j => (s.workers[j]?).any Worker.isServing
  | .exit => true

def machine : Machine State Step := ⟨step, fun s i => s.exited = none ∧ enabled s i = true⟩

instance (s : State) (i : Step) : Decidable (machine.ok s i) :=
  inferInstanceAs (Decidable (s.exited = none ∧ enabled s i = true))

/-- `main` before its loop, with `nthreads` threads created. -/
def start (clifd : Nat → Int) (nthreads : Nat) : State where
  clifd := clifd
  iget := 0
  iput := 0
  main := .accepting
  workers := List.replicate nthreads .locking
  exited := none
  accepted := []
  puts := []
  taken := []

/-! ## The ring -/

/-- Put and not yet taken. -/
def State.outstanding (s : State) : List Int := s.puts.drop s.taken.length

/-- What main holds on its way to the lock. -/
def Main.held : Main → List Int
  | .accepting => []
  | .locking connfd => [connfd]

/-- The last descriptor worker `j` took. -/
def lastTaken (j : Nat) (taken : List (Nat × Int)) : Option Int :=
  (taken.filter (·.1 = j)).getLast?.map Prod.snd

theorem lastTaken_append (j i : Nat) (connfd : Int) (taken : List (Nat × Int)) :
    lastTaken j (taken ++ [(i, connfd)]) =
      if i = j then some connfd else lastTaken j taken := by
  unfold lastTaken
  split <;> simp [List.filter_append, *]

/-- Descriptors are handed on in accept order through an intact ring, and main gives up just when
the ring is full. -/
structure Handed (s : State) : Prop where
  order : s.accepted = s.taken.map Prod.snd ++ s.outstanding ++ s.main.held
  counted : s.taken.length ≤ s.puts.length
  ring : Ring.Holds MAXNCLI s.clifd s.iget s.iput s.outstanding
  overflow : s.exited = some .overflow ↔ s.outstanding.length = MAXNCLI
  serving : ∀ j connfd, s.workers[j]? = some (.serving connfd) →
    lastTaken j s.taken = some connfd

theorem Handed.room {s : State} (h : Handed s) (hr : s.exited = none) :
    s.outstanding.length < MAXNCLI := by
  have hne : s.outstanding.length ≠ MAXNCLI := fun he => by
    have hex := h.overflow.mpr he
    rw [hr] at hex
    cases hex
  have hfits := h.ring.fits
  omega

/-- While the process runs, the consumers' test finds the ring empty just when it is. -/
theorem Handed.empty_iff {s : State} (h : Handed s) (hr : s.exited = none) :
    s.iget = s.iput ↔ s.outstanding = [] := by
  rw [h.ring.meet_iff]
  constructor
  · rintro (hnil | hfull)
    · exact hnil
    · exact absurd hfull (Nat.ne_of_lt (h.room hr))
  · exact .inl

/-- Moving a worker to a place outside `web_child` leaves the hand-over alone. -/
theorem Handed.move {s : State} (h : Handed s) (j : Nat) {w : Worker}
    (hw : w.isServing = false) : Handed { s with workers := s.workers.set j w } where
  order := h.order
  counted := h.counted
  ring := h.ring
  overflow := h.overflow
  serving := by
    intro i connfd hi
    simp only [List.getElem?_set] at hi
    split at hi
    · split at hi
      · cases hi
        cases hw
      · cases hi
    · exact h.serving i connfd hi

theorem Handed.signal {s : State} (h : Handed s) (k : Nat) :
    Handed { s with workers := signal k s.workers } := by
  unfold Serv08.signal
  split
  · exact h.move k rfl
  · exact h

theorem handed_of {s : State} {q : List Int} (hq : s.outstanding = q)
    (order : s.accepted = s.taken.map Prod.snd ++ q ++ s.main.held)
    (counted : s.taken.length ≤ s.puts.length) (ring : Ring.Holds MAXNCLI s.clifd s.iget s.iput q)
    (overflow : s.exited = some .overflow ↔ q.length = MAXNCLI)
    (serving : ∀ j connfd, s.workers[j]? = some (.serving connfd) →
      lastTaken j s.taken = some connfd) : Handed s := by
  subst hq
  exact ⟨order, counted, ring, overflow, serving⟩

theorem Handed.put {s : State} (h : Handed s) (hr : s.exited = none) {connfd : Int}
    (hm : s.main = .locking connfd) (k : Nat) :
    Handed (putLocked k connfd { s with main := .accepting }) := by
  have hout : (s.puts ++ [connfd]).drop s.taken.length = s.outstanding ++ [connfd] :=
    List.drop_append_of_le_length h.counted
  have hring := h.ring.put (h.room hr) connfd
  have horder : s.accepted =
      s.taken.map Prod.snd ++ (s.outstanding ++ [connfd]) ++ Main.accepting.held := by
    rw [h.order, hm, Main.held, Main.held, List.append_nil, List.append_assoc]
  have hcount : s.taken.length ≤ (s.puts ++ [connfd]).length := by
    rw [List.length_append]
    exact Nat.le_add_right_of_le h.counted
  have hmeet : Ring.next MAXNCLI s.iput = s.iget ↔
      (s.outstanding ++ [connfd]).length = MAXNCLI := by
    rw [eq_comm, hring.meet_iff]
    simp
  unfold putLocked
  simp only
  split
  · rename_i he
    exact handed_of hout horder hcount hring (iff_of_true rfl (hmeet.mp he)) h.serving
  · rename_i hne
    have hover : s.exited = some .overflow ↔ (s.outstanding ++ [connfd]).length = MAXNCLI := by
      rw [hr]
      exact iff_of_false (by simp) fun he => hne (hmeet.mpr he)
    exact Handed.signal (handed_of (s := { s with
      main := .accepting
      clifd := Function.update s.clifd s.iput connfd
      iput := Ring.next MAXNCLI s.iput
      puts := s.puts ++ [connfd] }) hout horder hcount hring hover h.serving) k

theorem Handed.lock {s : State} (h : Handed s) (hr : s.exited = none) (j : Nat) :
    Handed (thread_main j s) := by
  unfold thread_main
  split
  · exact h.move j rfl
  · rename_i hne
    have hsome : s.outstanding ≠ [] := fun he => hne ((h.empty_iff hr).mpr he)
    obtain ⟨x, rest, hcons⟩ := List.exists_cons_of_ne_nil hsome
    have hring := h.ring
    have horder := h.order
    have hroom := h.room hr
    rw [hcons] at hring horder hroom
    obtain ⟨rfl, htake⟩ := hring.take
    have hlt : s.taken.length < s.puts.length := by
      have hpos := List.length_pos_of_ne_nil hsome
      rw [State.outstanding, List.length_drop] at hpos
      omega
    have hrest : s.puts.drop (s.taken ++ [(j, s.clifd s.iget)]).length = rest := by
      rw [List.length_append, List.length_singleton, ← List.drop_drop, ← State.outstanding, hcons]
      rfl
    refine handed_of (q := rest) hrest (by simpa using horder) ?_ htake ?_ ?_
    · rw [List.length_append, List.length_singleton]
      exact hlt
    · rw [hr]
      exact iff_of_false (by simp) (Nat.ne_of_lt (Nat.lt_of_succ_lt hroom))
    · intro i connfd hi
      simp only [List.getElem?_set] at hi
      rw [lastTaken_append]
      split at hi
      · rename_i hij
        rw [if_pos hij]
        split at hi
        · cases hi
          rfl
        · cases hi
      · rename_i hij
        rw [if_neg hij]
        exact h.serving i connfd hi

theorem Handed.accept {s : State} (h : Handed s) (hm : s.main = .accepting) (connfd : Int) :
    Handed { s with main := .locking connfd, accepted := s.accepted ++ [connfd] } where
  order := by
    have horder := h.order
    rw [hm, Main.held, List.append_nil] at horder
    rw [horder]
    rfl
  counted := h.counted
  ring := h.ring
  overflow := h.overflow
  serving := h.serving

theorem handed_step {s : State} {i : Step} (h : Handed s) (hok : machine.ok s i) :
    Handed (machine.step s i) := by
  obtain ⟨hr, hen⟩ := hok
  cases i with
  | accept connfd => exact h.accept (by simpa [enabled] using hen) connfd
  | put k =>
    cases hm : s.main with
    | accepting => simp [enabled, hm] at hen
    | locking connfd => simpa [machine, step, hm] using h.put hr hm k
  | wake j => exact h.move j rfl
  | lock j => exact h.lock hr j
  | served j => exact h.move j rfl
  | exit =>
    exact handed_of rfl h.order h.counted h.ring
      (iff_of_false (by simp [machine, step]) (Nat.ne_of_lt (h.room hr))) h.serving

theorem start_handed (clifd : Nat → Int) (nthreads : Nat) : Handed (start clifd nthreads) where
  order := rfl
  counted := Nat.le_refl 0
  ring := Ring.holds_nil clifd (by decide)
  overflow := by simp [start, State.outstanding, MAXNCLI]
  serving := by
    intro j connfd hj
    have hmem := List.mem_of_getElem? hj
    simp [start] at hmem

/-! ## The signals -/

def Worker.isSignalled : Worker → Bool
  | .signalled => true
  | _ => false

def State.onTheWay (s : State) : Nat := s.workers.countP Worker.isSignalled

/-- While anybody sleeps, every queued descriptor has a signalled worker on its way. -/
def Signalled (s : State) : Prop :=
  s.exited = none → .waiting ∈ s.workers → s.outstanding.length ≤ s.onTheWay

/-- A worker that moves, from a place that is no signal to another, neither to sleep. -/
theorem Signalled.move {s : State} (h : Signalled s) {j : Nat} {v w : Worker}
    (hj : s.workers[j]? = some v) (hv : v.isSignalled = false) (hs : w.isSignalled = false)
    (hw : w ≠ .waiting) : Signalled { s with workers := s.workers.set j w } := by
  intro hr hmem
  have hcount : (s.workers.set j w).countP Worker.isSignalled = s.onTheWay :=
    Threads.count_stay hj (by rw [hv, hs])
  have hlen := h hr (Threads.mem_of_mem_set hw hmem)
  unfold State.onTheWay
  rw [hcount]
  exact hlen

/-- The signal goes with the descriptor: one more is queued and, if anybody sleeps, one more
worker is on its way. -/
theorem Signalled.put {s : State} (h : Signalled s) (hh : Handed s) (hr : s.exited = none)
    {k : Nat} (hk : .waiting ∈ s.workers → s.workers[k]? = some .waiting) (connfd : Int) :
    Signalled (putLocked k connfd { s with main := .accepting }) := by
  have hout : ((s.puts ++ [connfd]).drop s.taken.length).length = s.outstanding.length + 1 := by
    rw [List.drop_append_of_le_length hh.counted, List.length_append]
    rfl
  unfold putLocked
  simp only
  split
  · intro hex
    cases hex
  · intro _ hmem
    simp only [State.outstanding, State.onTheWay, Serv08.signal] at hmem ⊢
    rw [hout]
    split at hmem
    · rename_i hwait
      have hlen := h hr (Threads.mem_of_mem_set (by simp) hmem)
      have hcount := Threads.count_move (p := Worker.isSignalled) hwait .signalled
      simp only [Worker.isSignalled] at hcount
      rw [if_pos hwait]
      unfold State.onTheWay at hlen
      simp only [Bool.false_eq_true, if_false, if_true] at hcount
      omega
    · rename_i hno
      exact absurd (hk hmem) hno

/-- A worker takes one descriptor off the ring, whether it was signalled or just came by. -/
theorem Signalled.lock {s : State} (h : Signalled s) (hh : Handed s) (hr : s.exited = none)
    {j : Nat} {w : Worker} (hj : s.workers[j]? = some w) : Signalled (thread_main j s) := by
  unfold thread_main
  split
  · rename_i hempty
    intro _ _
    have hnil : s.outstanding = [] := (hh.empty_iff hr).mp hempty
    change s.outstanding.length ≤ _
    rw [hnil]
    exact Nat.zero_le _
  · rename_i hne
    intro _ hmem
    have hsome : 0 < s.outstanding.length :=
      List.length_pos_of_ne_nil fun he => hne ((hh.empty_iff hr).mpr he)
    have hlen := h hr (Threads.mem_of_mem_set (by simp) hmem)
    have hcount := Threads.count_move (p := Worker.isSignalled) hj (.serving (s.clifd s.iget))
    simp only [State.outstanding, State.onTheWay, List.length_drop, List.length_append,
      List.length_singleton] at hlen hsome ⊢
    simp only [show (Worker.serving _).isSignalled = false from rfl, Bool.false_eq_true,
      if_false, Nat.add_zero] at hcount
    cases hw : w.isSignalled with
    | false =>
      simp only [hw, Bool.false_eq_true, if_false] at hcount
      omega
    | true =>
      simp only [hw, if_true] at hcount
      omega

theorem signalled_step {s : State} {i : Step} (h : Signalled s) (hh : Handed s)
    (hok : machine.ok s i) : Signalled (machine.step s i) := by
  obtain ⟨hr, hen⟩ := hok
  cases i with
  | accept connfd => exact h
  | put k =>
    simp only [enabled, decide_eq_true_eq] at hen
    cases hm : s.main with
    | accepting => exact absurd hm hen.1
    | locking connfd => simpa [machine, step, hm] using h.put hh hr hen.2 connfd
  | wake j => exact h.move (by simpa [enabled] using hen) rfl rfl (by simp)
  | lock j =>
    obtain ⟨w, hj, _⟩ := (Option.any_eq_true ..).mp hen
    exact h.lock hh hr hj
  | served j =>
    obtain ⟨w, hj, hw⟩ := (Option.any_eq_true ..).mp hen
    cases w with
    | serving connfd => exact h.move hj rfl rfl (by simp)
    | locking => cases hw
    | waiting => cases hw
    | signalled => cases hw
    | spurious => cases hw
  | exit =>
    intro hex
    cases hex

theorem start_signalled (clifd : Nat → Int) (nthreads : Nat) :
    Signalled (start clifd nthreads) := by
  intro _ _
  exact Nat.zero_le _

/-! ## Runs -/

/-- The accepted descriptors are the ones taken, in order, then those in the ring, then the one
main holds; the indices are in range, no slot of the ring was overwritten, and main exits just
when the ring has filled up. -/
structure InTurn (s : State) : Prop where
  order : s.accepted = s.taken.map Prod.snd ++ s.outstanding ++ s.main.held
  serving : ∀ j connfd, s.workers[j]? = some (.serving connfd) →
    lastTaken j s.taken = some connfd
  iget_lt : s.iget < MAXNCLI
  iput_lt : s.iput < MAXNCLI
  intact : ∀ i < s.outstanding.length,
    s.outstanding[i]? = some (s.clifd ((s.iget + i) % MAXNCLI))
  overflow : s.exited = some .overflow ↔ s.outstanding.length = MAXNCLI

/-- The ring is non-empty, a worker sleeps, and no signalled one is on its way. -/
structure LostWakeup (s : State) : Prop where
  running : s.exited = none
  queued : s.outstanding ≠ []
  asleep : .waiting ∈ s.workers
  nobody : .signalled ∉ s.workers

theorem Handed.inTurn {s : State} (h : Handed s) : InTurn s :=
  ⟨h.order, h.serving, h.ring.iget_lt, h.ring.iput_lt, h.ring.held, h.overflow⟩

theorem Signalled.not_lost {s : State} (h : Signalled s) : ¬LostWakeup s := by
  intro hl
  have hlen := h hl.running hl.asleep
  have hpos := List.length_pos_of_ne_nil hl.queued
  have hcount : 0 < s.onTheWay := Nat.lt_of_lt_of_le hpos hlen
  obtain ⟨w, hmem, hw⟩ := List.countP_pos_iff.mp hcount
  cases w with
  | signalled => exact hl.nobody hmem
  | locking => cases hw
  | waiting => cases hw
  | spurious => cases hw
  | serving connfd => cases hw

theorem runs_inv (clifd : Nat → Int) (nthreads : Nat) {is : List Step}
    (hv : machine.Valid (start clifd nthreads) is) :
    machine.Always (fun s => Handed s ∧ Signalled s) (start clifd nthreads) is :=
  Machine.always_inv (fun _ _ h hok => ⟨handed_step h.1 hok, signalled_step h.2 h.1 hok⟩)
    ⟨start_handed clifd nthreads, start_signalled clifd nthreads⟩ hv

/-- Two workers sleep; two descriptors are put, a worker wakes without need, and a signalled one
and the other take them. -/
def twoWorkers : List Step :=
  [.lock 0, .lock 1, .accept 7, .put 1, .wake 0, .accept 8, .put 0, .lock 0, .lock 1, .served 0,
    .lock 0]

theorem twoWorkers_valid : machine.Valid (start (fun _ => 0) 2) twoWorkers := by decide

/-- Every run hands the descriptors on in turn. -/
theorem runs_in_turn (clifd : Nat → Int) (nthreads : Nat) (is : List Step)
    (hv : machine.Valid (start clifd nthreads) is) :
    machine.Always InTurn (start clifd nthreads) is :=
  (runs_inv clifd nthreads hv).imp fun _ h => h.1.inTurn

theorem runs_in_turn_twoWorkers :
    machine.Always InTurn (start (fun _ => 0) 2) twoWorkers :=
  runs_in_turn _ 2 twoWorkers twoWorkers_valid

example : (machine.run (start (fun _ => 0) 2) twoWorkers).taken = [(0, 7), (1, 8)] := by decide

/-- No run loses a wake-up. -/
theorem runs_no_lost_wakeup (clifd : Nat → Int) (nthreads : Nat) (is : List Step)
    (hv : machine.Valid (start clifd nthreads) is) :
    machine.Always (fun s => ¬LostWakeup s) (start clifd nthreads) is :=
  (runs_inv clifd nthreads hv).imp fun _ h => h.2.not_lost

theorem runs_no_lost_wakeup_twoWorkers :
    machine.Always (fun s => ¬LostWakeup s) (start (fun _ => 0) 2) twoWorkers :=
  runs_no_lost_wakeup _ 2 twoWorkers twoWorkers_valid

end Serv08
end Unpvol1
