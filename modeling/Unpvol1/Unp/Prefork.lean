import Unpvol1.Lib.Machine
import Unpvol1.Lib.Mutex

/-!
# Unp.Prefork

The preforked servers (`30chp/serv02.c`, `serv03.c`, `serv04.c`, and with threads `serv07.c`): all
children run `child_main` on one listening socket. `serv03` locks a file around `accept`, `serv04`
and `serv07` a mutex; the mutex of `serv04` is in memory that the children share. Any child may take
the next step, and may die at any of them.

* `Did`    — what a step can do.
* `Locked` — who is between `my_lock_wait` and `my_lock_release` owns the lock.
* `Served` — every connection is in one place.
* `always_exclusive`, `always_served` — at most one child is in `accept`; no connection is lost or
  served twice.
* `never_blocked_iff` — when the children can end up waiting for a lock that nobody will release.
-/

namespace Unpvol1
namespace Prefork

inductive Server where
  | serv02
  | serv03
  | serv04
  | serv07
deriving DecidableEq

/-- `my_lock_wait` before `accept`. -/
def Server.locks : Server → Bool
  | .serv02 => false
  | _ => true

/-- Where a child is: in `my_lock_wait`, in `accept`, behind it and before `my_lock_release`, or in
`web_child`. No connection stands for the -1 of an `accept` that failed, which is not looked at. -/
inductive Child where
  | waiting
  | accepting
  | accepted (connfd : Option Nat)
  | serving (connfd : Option Nat)
  | dead
deriving DecidableEq

/-- The top of the loop. -/
def Server.top (k : Server) : Child := if k.locks then .waiting else .accepting

/-- Behind `accept`. -/
def Server.behind (k : Server) (connfd : Option Nat) : Child :=
  if k.locks then .accepted connfd else .serving connfd

def Child.conn : Child → List Nat
  | .accepted connfd => connfd.toList
  | .serving connfd => connfd.toList
  | _ => []

/-- Between `my_lock_wait` and `my_lock_release`. -/
def Child.holds : Child → Bool
  | .accepting => true
  | .accepted _ => true
  | _ => false

/-- Connections are counted as they arrive; `queue` is the backlog of the listening socket. `taken`
is which child accepted which connection, `done` what was served to its end, and `dropped` what a
child took with it when it died. -/
structure State where
  lock : Option Nat
  children : List Child
  arrived : Nat
  queue : List Nat
  taken : List (Nat × Nat)
  done : List Nat
  dropped : List Nat
deriving DecidableEq

inductive Event where
  | arrive
  /-- `fcntl` returns -1 with EINTR. -/
  | interrupted (i : Nat)
  | lock (i : Nat)
  | accept (i : Nat)
  | acceptFails (i : Nat)
  | release (i : Nat)
  /-- `web_child` returns, and the connection is closed. -/
  | finish (i : Nat)
  /-- A signal, or one of the `exit(1)`s. -/
  | die (i : Nat)
deriving DecidableEq

def State.move (i : Nat) (x : Child) (s : State) : State :=
  { s with children := s.children.set i x }

/-- The lock on the file of a process that is gone is gone too; a mutex stays locked. The `exit` of
a thread ends them all. -/
def die (k : Server) (i : Nat) (x : Child) (s : State) : State :=
  if k = .serv07 then
    { s with
      children := s.children.map fun _ => .dead
      dropped := s.dropped ++ s.children.flatMap Child.conn }
  else
    { s.move i .dead with
      dropped := s.dropped ++ x.conn
      lock := if k = .serv03 ∧ s.lock = some i then none else s.lock }

def step (k : Server) (s : State) : Event → State
  | .arrive => { s with queue := s.queue ++ [s.arrived], arrived := s.arrived + 1 }
  | .interrupted _ => s
  | .lock i => { s.move i .accepting with lock := some i }
  | .accept i =>
    match s.queue with
    | [] => s
    | c :: queue => { s.move i (k.behind (some c)) with
        queue := queue
        taken := s.taken ++ [(i, c)] }
  | .acceptFails i => s.move i (k.behind none)
  | .release i =>
    match s.children[i]? with
    | some (.accepted connfd) => { s.move i (.serving connfd) with lock := none }
    | _ => s
  | .finish i =>
    match s.children[i]? with
    | some (.serving (some c)) => { s.move i k.top with done := s.done ++ [c] }
    | _ => s
  | .die i =>
    match s.children[i]? with
    | some x => die k i x s
    | none => s

def Child.isAccepted : Child → Bool
  | .accepted _ => true
  | _ => false

def Child.isServing : Child → Bool
  | .serving (some _) => true
  | _ => false

/-- `web_child` only returns at the end of a connection. -/
def ok (s : State) : Event → Prop
  | .arrive => True
  | .interrupted i => s.children[i]? = some .waiting
  | .lock i => s.children[i]? = some .waiting ∧ s.lock = none
  | .accept i => s.children[i]? = some .accepting ∧ s.queue ≠ []
  | .acceptFails i => s.children[i]? = some .accepting
  | .release i => (s.children[i]?).any Child.isAccepted = true
  | .finish i => (s.children[i]?).any Child.isServing = true
  | .die i => (s.children[i]?).any (· ≠ .dead) = true

instance (s : State) : (e : Event) → Decidable (ok s e)
  | .arrive => inferInstanceAs (Decidable True)
  | .interrupted i => inferInstanceAs (Decidable (s.children[i]? = some .waiting))
  | .lock i => inferInstanceAs (Decidable (s.children[i]? = some .waiting ∧ s.lock = none))
  | .accept i => inferInstanceAs (Decidable (s.children[i]? = some .accepting ∧ s.queue ≠ []))
  | .acceptFails i => inferInstanceAs (Decidable (s.children[i]? = some .accepting))
  | .release i => inferInstanceAs (Decidable ((s.children[i]?).any Child.isAccepted = true))
  | .finish i => inferInstanceAs (Decidable ((s.children[i]?).any Child.isServing = true))
  | .die i => inferInstanceAs (Decidable ((s.children[i]?).any (· ≠ .dead) = true))

def machine (k : Server) : Machine State Event := ⟨step k, ok⟩

instance (k : Server) (s : State) (e : Event) : Decidable ((machine k).ok s e) :=
  inferInstanceAs (Decidable (ok s e))

/-- All children made. -/
def start (k : Server) (nchildren : Nat) : State where
  lock := none
  children := List.replicate nchildren k.top
  arrived := 0
  queue := []
  taken := []
  done := []
  dropped := []

section
variable {k : Server} {s s' : State}

/-! ## What a step can do -/

inductive Did (k : Server) (s : State) : State → Prop where
  | arrive : Did k s { s with queue := s.queue ++ [s.arrived], arrived := s.arrived + 1 }
  | idle : Did k s s
  | lock (i : Nat) (hi : s.children[i]? = some .waiting) (hfree : s.lock = none) :
      Did k s { s.move i .accepting with lock := some i }
  | accept (i c : Nat) (queue : List Nat) (hi : s.children[i]? = some .accepting)
      (hq : s.queue = c :: queue) :
      Did k s { s.move i (k.behind (some c)) with queue := queue, taken := s.taken ++ [(i, c)] }
  | acceptFails (i : Nat) (hi : s.children[i]? = some .accepting) :
      Did k s (s.move i (k.behind none))
  | release (i : Nat) (connfd : Option Nat) (hi : s.children[i]? = some (.accepted connfd)) :
      Did k s { s.move i (.serving connfd) with lock := none }
  | finish (i c : Nat) (hi : s.children[i]? = some (.serving (some c))) :
      Did k s { s.move i k.top with done := s.done ++ [c] }
  | die (i : Nat) (x : Child) (hi : s.children[i]? = some x) (hx : x ≠ .dead)
      (hk : k ≠ .serv07) :
      Did k s { s.move i .dead with
        dropped := s.dropped ++ x.conn
        lock := if k = .serv03 ∧ s.lock = some i then none else s.lock }
  | exit (hk : k = .serv07) :
      Did k s { s with
        children := s.children.map fun _ => .dead
        dropped := s.dropped ++ s.children.flatMap Child.conn }

theorem step_did {e : Event} (hok : (machine k).ok s e) : Did k s ((machine k).step s e) := by
  show Did k s (step k s e)
  have hok : ok s e := hok
  cases e with
  | arrive => exact .arrive
  | interrupted i => exact .idle
  | lock i => exact .lock i hok.1 hok.2
  | accept i =>
    obtain ⟨hi, hq⟩ := hok
    cases hs : s.queue with
    | nil => exact absurd hs hq
    | cons c queue =>
      simp only [step, hs]
      exact .accept i c queue hi hs
  | acceptFails i => exact .acceptFails i hok
  | release i =>
    cases hi : s.children[i]? with
    | none => simp [ok, hi] at hok
    | some x =>
      cases x with
      | accepted connfd =>
        simp only [step, hi]
        exact .release i connfd hi
      | _ => simp [ok, hi, Child.isAccepted] at hok
  | finish i =>
    cases hi : s.children[i]? with
    | none => simp [ok, hi] at hok
    | some x =>
      cases x with
      | serving connfd =>
        cases connfd with
        | none => simp [ok, hi, Child.isServing] at hok
        | some c =>
          simp only [step, hi]
          exact .finish i c hi
      | _ => simp [ok, hi, Child.isServing] at hok
  | die i =>
    cases hi : s.children[i]? with
    | none => simp [ok, hi] at hok
    | some x =>
      have hx : x ≠ .dead := by simpa [ok, hi] using hok
      simp only [step, hi, die]
      split
      · rename_i hk
        exact .exit hk
      · rename_i hk
        exact .die i x hi hx hk

/-! ## The lock -/

/-- Whoever is between `my_lock_wait` and `my_lock_release` owns the lock; the owner is there, or
has died there with the lock. -/
structure Locked (k : Server) (s : State) : Prop where
  guards : Mutex.Guards Child.holds s.lock s.children
  owner : ∀ i, s.lock = some i → ∃ x, s.children[i]? = some x ∧
    (x.holds = true ∨ (x = .dead ∧ k ≠ .serv03))

theorem behind_of_locks (hk : k.locks = true) (connfd : Option Nat) :
    k.behind connfd = .accepted connfd := if_pos hk

theorem top_of_locks (hk : k.locks = true) : k.top = .waiting := if_pos hk

theorem getElem?_set_self {ts : List Child} {i : Nat} {x : Child} (h : ts[i]? = some x)
    (y : Child) : (ts.set i y)[i]? = some y := by
  rw [List.getElem?_set_self]
  exact (List.getElem?_eq_some_iff.mp h).1

/-- The owner stays where it is when another child moves. -/
theorem owner_stays (h : Locked k s) {i : Nat} {x : Child} (hi : s.children[i]? = some x)
    (hx : x.holds = false) (hlive : x ≠ .dead) (y : Child) (j : Nat) (hj : s.lock = some j) :
    ∃ z, (s.children.set i y)[j]? = some z ∧
      (z.holds = true ∨ (z = .dead ∧ k ≠ .serv03)) := by
  obtain ⟨z, hz, hcase⟩ := h.owner j hj
  have hne : i ≠ j := by
    rintro rfl
    obtain rfl : x = z := Option.some.inj (hi.symm.trans hz)
    obtain hh | ⟨rfl, _⟩ := hcase
    · rw [hx] at hh
      cases hh
    · exact hlive rfl
  exact ⟨z, by rw [List.getElem?_set_ne hne, hz], hcase⟩

/-- The owner moves on inside. -/
theorem Locked.inside (h : Locked k s) {i : Nat} {x y : Child} (hi : s.children[i]? = some x)
    (hx : x.holds = true) (hy : y.holds = true) :
    Mutex.Guards Child.holds s.lock (s.children.set i y) ∧
      ∀ j, s.lock = some j → ∃ z, (s.children.set i y)[j]? = some z ∧
        (z.holds = true ∨ (z = .dead ∧ k ≠ .serv03)) := by
  have hlock := h.guards i x hi hx
  refine ⟨h.guards.stay fun _ => hlock, fun j hj => ?_⟩
  obtain rfl : i = j := Option.some.inj (hlock.symm.trans hj)
  exact ⟨y, getElem?_set_self hi y, .inl hy⟩

theorem Locked.did (hk : k.locks = true) (h : Locked k s) (hd : Did k s s') : Locked k s' := by
  cases hd with
  | arrive => exact ⟨h.guards, h.owner⟩
  | idle => exact h
  | lock i hi hfree =>
    have hg := h.guards
    rw [hfree] at hg
    refine ⟨hg.acquire i _, fun j hj => ?_⟩
    obtain rfl : i = j := Option.some.inj hj
    exact ⟨.accepting, getElem?_set_self hi _, .inl rfl⟩
  | accept i c queue hi hq =>
    have hin := h.inside hi rfl (y := k.behind (some c)) (by rw [behind_of_locks hk]; rfl)
    exact ⟨hin.1, hin.2⟩
  | acceptFails i hi =>
    have hin := h.inside hi rfl (y := k.behind none) (by rw [behind_of_locks hk]; rfl)
    exact ⟨hin.1, hin.2⟩
  | release i connfd hi =>
    have hlock := h.guards i _ hi rfl
    have hg := h.guards
    rw [hlock] at hg
    exact ⟨hg.release rfl, fun j hj => by cases hj⟩
  | finish i c hi =>
    refine ⟨h.guards.stay ?_, owner_stays h hi rfl (by simp) _⟩
    rw [top_of_locks hk]
    simp [Child.holds]
  | die i x hi hx hk7 =>
    by_cases hk3 : k = .serv03 ∧ s.lock = some i
    · refine ⟨?_, ?_⟩
      · show Mutex.Guards _ (if k = .serv03 ∧ s.lock = some i then none else s.lock) _
        rw [if_pos hk3]
        have hg := h.guards
        rw [hk3.2] at hg
        exact hg.release rfl
      · intro j hj
        rw [if_pos hk3] at hj
        cases hj
    · refine ⟨?_, ?_⟩
      · show Mutex.Guards _ (if k = .serv03 ∧ s.lock = some i then none else s.lock) _
        rw [if_neg hk3]
        exact h.guards.stay (by simp [Child.holds])
      · intro j hj
        rw [if_neg hk3] at hj
        by_cases hij : i = j
        · subst hij
          exact ⟨.dead, getElem?_set_self hi _, .inr ⟨rfl, fun h3 => hk3 ⟨h3, hj⟩⟩⟩
        · obtain ⟨z, hz, hcase⟩ := h.owner j hj
          exact ⟨z, by rw [← hz]; exact List.getElem?_set_ne hij, hcase⟩
  | exit hk7 =>
    refine ⟨Mutex.Guards.clear _ _ ?_, fun j hj => ?_⟩
    · intro x hx
      obtain ⟨_, _, rfl⟩ := List.mem_map.mp hx
      rfl
    · obtain ⟨z, hz, _⟩ := h.owner j hj
      refine ⟨.dead, ?_, .inr ⟨rfl, by simp [hk7]⟩⟩
      rw [List.getElem?_map, hz]
      rfl

/-! ## The connections -/

/-- Connections are accepted in the order in which they arrive. One that has been accepted is with a
child, and with the one that accepted it, or served to its end, or gone with a child that died; and
in one of these places only. -/
structure Served (s : State) : Prop where
  order : s.taken.map Prod.snd ++ s.queue = List.range s.arrived
  once : (s.children.flatMap Child.conn ++ (s.done ++ s.dropped)).Perm (s.taken.map Prod.snd)
  own : ∀ (i : Nat) (x : Child) (c : Nat), s.children[i]? = some x → c ∈ x.conn →
    (i, c) ∈ s.taken

theorem conn_top (k : Server) : k.top.conn = [] := by
  cases k <;> rfl

theorem conn_behind (k : Server) (connfd : Option Nat) :
    (k.behind connfd).conn = connfd.toList := by
  unfold Server.behind
  split <;> rfl

/-- A child moves on with what it has. -/
theorem Served.move (h : Served s) {i : Nat} {x y : Child} (hi : s.children[i]? = some x)
    (hc : y.conn = x.conn) (lock : Option Nat) :
    Served { s.move i y with lock := lock } where
  order := h.order
  once := by
    have hp := Mutex.perm_move Child.conn hi y
    rw [hc] at hp
    exact (((List.perm_append_right_iff x.conn).mp hp).append_right _).trans h.once
  own := by
    intro j z c hj hz
    obtain ⟨rfl, rfl⟩ | ⟨_, hj⟩ := Mutex.getElem?_set_cases hj
    · rw [hc] at hz
      exact h.own j x c hi hz
    · exact h.own j z c hj hz

/-- A child puts down what it has. -/
theorem Served.putDown (h : Served s) {i : Nat} {x y : Child} (hi : s.children[i]? = some x)
    (hy : y.conn = []) (lock : Option Nat) (done dropped : List Nat)
    (hp : (done ++ dropped).Perm (x.conn ++ (s.done ++ s.dropped))) :
    Served { s.move i y with lock := lock, done := done, dropped := dropped } where
  order := h.order
  once := by
    have hm := Mutex.perm_move Child.conn hi y
    rw [hy, List.append_nil] at hm
    have hq := (hp.append_left ((s.children.set i y).flatMap Child.conn)).trans
      (List.Perm.of_eq (List.append_assoc _ _ _).symm)
    exact (hq.trans (hm.append_right _)).trans h.once
  own := by
    intro j z c hj hz
    obtain ⟨rfl, rfl⟩ | ⟨_, hj⟩ := Mutex.getElem?_set_cases hj
    · rw [hy] at hz
      cases hz
    · exact h.own j z c hj hz

theorem Served.did (h : Served s) (hd : Did k s s') : Served s' := by
  cases hd with
  | arrive =>
    refine ⟨?_, h.once, h.own⟩
    show s.taken.map Prod.snd ++ (s.queue ++ [s.arrived]) = List.range (s.arrived + 1)
    rw [List.range_succ, ← h.order, List.append_assoc]
  | idle => exact h
  | lock i hi hfree => exact h.move (y := .accepting) hi rfl _
  | accept i c queue hi hq =>
    have horder := h.order
    rw [hq] at horder
    refine ⟨?_, ?_, ?_⟩
    · simpa [State.move] using horder
    · have hm := Mutex.perm_move Child.conn hi (k.behind (some c))
      rw [conn_behind] at hm
      have hone : ((s.children.set i (k.behind (some c))).flatMap Child.conn).Perm
          (s.children.flatMap Child.conn ++ [c]) := by
        simpa [Child.conn] using hm
      have hlast : (s.children.flatMap Child.conn ++ [c] ++ (s.done ++ s.dropped)).Perm
          (s.children.flatMap Child.conn ++ (s.done ++ s.dropped) ++ [c]) := by
        rw [List.append_assoc, List.append_assoc]
        exact List.perm_append_comm.append_left _
      rw [List.map_append]
      exact ((hone.append_right _).trans hlast).trans (h.once.append_right [c])
    · intro j z c' hj hz
      obtain ⟨rfl, rfl⟩ | ⟨_, hj⟩ := Mutex.getElem?_set_cases hj
      · rw [conn_behind] at hz
        obtain rfl : c' = c := by simpa using hz
        exact List.mem_append_right _ (List.mem_singleton.mpr rfl)
      · exact List.mem_append_left _ (h.own j z c' hj hz)
  | acceptFails i hi => exact h.move hi (by rw [conn_behind]; rfl) _
  | release i connfd hi => exact h.move (y := .serving connfd) hi rfl _
  | finish i c hi =>
    refine h.putDown hi (conn_top k) _ _ _ ?_
    show ((s.done ++ [c]) ++ s.dropped).Perm ([c] ++ (s.done ++ s.dropped))
    rw [← List.append_assoc]
    exact List.perm_append_comm.append_right _
  | die i x hi hx hk =>
    refine h.putDown hi rfl _ _ _ ?_
    rw [← List.append_assoc]
    exact List.perm_append_comm
  | exit hk =>
    refine ⟨h.order, ?_, ?_⟩
    · have hnone : (s.children.map fun _ => Child.dead).flatMap Child.conn = [] := by
        refine List.flatMap_eq_nil_iff.mpr fun x hx => ?_
        obtain ⟨_, _, rfl⟩ := List.mem_map.mp hx
        rfl
      rw [hnone, List.nil_append, ← List.append_assoc]
      exact List.perm_append_comm.trans h.once
    · intro j z c hj hz
      obtain ⟨_, _, rfl⟩ := List.mem_map.mp (List.mem_of_getElem? hj)
      cases hz

/-! ## A lock that is never released -/

/-- The child can still come to another connection. One with the -1 of a failed `accept` does not
return from `web_child`. -/
def Child.able : Child → Bool
  | .waiting => true
  | .accepting => true
  | .accepted connfd => connfd.isSome
  | .serving connfd => connfd.isSome
  | .dead => false

def Able (s : State) : Prop := ∃ (i : Nat) (x : Child), s.children[i]? = some x ∧ x.able = true

/-- The lock is owned by a child that is gone. -/
def Lost (s : State) : Prop := ∃ i, s.lock = some i ∧ s.children[i]? = some .dead

/-- There is a child to take a connection, and none will be taken any more, whatever arrives and
whatever the children do. -/
def Blocked (k : Server) (s : State) : Prop :=
  Able s ∧ ∀ es, (machine k).Valid s es → ((machine k).run s es).taken = s.taken

/-- With the lock lost nobody comes to `accept`. -/
theorem lost_did (hl : Locked k s) (h : Lost s) (hd : Did k s s') :
    Lost s' ∧ s'.taken = s.taken := by
  obtain ⟨i, hlock, hi⟩ := h
  have hother : ∀ {j : Nat} {x : Child}, s.children[j]? = some x → x ≠ .dead → j ≠ i := by
    rintro j x hj hx rfl
    exact hx (Option.some.inj (hj.symm.trans hi))
  have hinside : ∀ {j : Nat} {x : Child}, s.children[j]? = some x → x ≠ .dead →
      x.holds = false := by
    intro j x hj hx
    cases hh : x.holds with
    | false => rfl
    | true =>
      have := hl.guards j x hj hh
      rw [hlock] at this
      exact absurd (Option.some.inj this).symm (hother hj hx)
  have hstays : ∀ {j : Nat} (y : Child), j ≠ i → (s.children.set j y)[i]? = some .dead :=
    fun y hne => (List.getElem?_set_ne hne).trans hi
  cases hd with
  | arrive => exact ⟨⟨i, hlock, hi⟩, rfl⟩
  | idle => exact ⟨⟨i, hlock, hi⟩, rfl⟩
  | lock j hj hfree =>
    rw [hlock] at hfree
    cases hfree
  | accept j c queue hj hq => exact absurd (hinside hj (by simp)) (by simp [Child.holds])
  | acceptFails j hj => exact absurd (hinside hj (by simp)) (by simp [Child.holds])
  | release j connfd hj => exact absurd (hinside hj (by simp)) (by simp [Child.holds])
  | finish j c hj => exact ⟨⟨i, hlock, hstays _ (hother hj (by simp))⟩, rfl⟩
  | die j x hj hx hk =>
    have hne := hother hj hx
    have hkeep : ¬(k = .serv03 ∧ s.lock = some j) := by
      rintro ⟨_, hj'⟩
      rw [hlock] at hj'
      exact hne (Option.some.inj hj').symm
    exact ⟨⟨i, by rw [if_neg hkeep]; exact hlock, hstays _ hne⟩, rfl⟩
  | exit hk =>
    refine ⟨⟨i, hlock, ?_⟩, rfl⟩
    rw [List.getElem?_map, hi]
    rfl

theorem taken_of_lost (hk : k.locks = true) (es : List Event) {s : State} (hl : Locked k s)
    (h : Lost s) (hv : (machine k).Valid s es) : ((machine k).run s es).taken = s.taken := by
  induction es generalizing s with
  | nil => rfl
  | cons e es ih =>
    have hd := step_did hv.1
    obtain ⟨hlost, htaken⟩ := lost_did hl h hd
    rw [Machine.run_cons, ih (hl.did hk hd) hlost hv.2, htaken]

/-- Some continuation takes a connection. -/
def Takes (k : Server) (s : State) : Prop :=
  ∃ es, (machine k).Valid s es ∧ ((machine k).run s es).taken ≠ s.taken

theorem Takes.after {e : Event} (hok : (machine k).ok s e)
    (htaken : ((machine k).step s e).taken = s.taken) (h : Takes k ((machine k).step s e)) :
    Takes k s := by
  obtain ⟨es, hv, hne⟩ := h
  exact ⟨e :: es, ⟨hok, hv⟩, by rwa [Machine.run_cons, ← htaken]⟩

theorem takes_of_accepting {i : Nat} (hi : s.children[i]? = some .accepting) : Takes k s := by
  refine ⟨[.arrive, .accept i], ⟨trivial, ⟨hi, ?_⟩, trivial⟩, ?_⟩
  · simp [machine, step]
  · have hone : ∀ c queue, s.queue ++ [s.arrived] = c :: queue →
        ((machine k).run s [.arrive, .accept i]).taken = s.taken ++ [(i, c)] := by
      intro c queue hq
      simp [machine, step, hq]
    cases hq : s.queue ++ [s.arrived] with
    | nil => simp at hq
    | cons c queue =>
      rw [hone c queue hq]
      simp

theorem takes_of_free {i : Nat} {x : Child} (hk : k.locks = true) (hfree : s.lock = none)
    (hi : s.children[i]? = some x) (hx : x = .waiting ∨ ∃ c, x = .serving (some c)) :
    Takes k s := by
  have hwait : ∀ {s : State}, s.lock = none → s.children[i]? = some .waiting → Takes k s := by
    intro s hfree hi
    refine .after (e := .lock i) ⟨hi, hfree⟩ rfl (takes_of_accepting (i := i) ?_)
    exact getElem?_set_self hi _
  obtain rfl | ⟨c, rfl⟩ := hx
  · exact hwait hfree hi
  · have hok : (machine k).ok s (.finish i) := by simp [machine, ok, hi, Child.isServing]
    have hstep : (machine k).step s (.finish i) =
        { s.move i k.top with done := s.done ++ [c] } := by
      simp [machine, step, hi]
    refine .after hok (by rw [hstep]; rfl) ?_
    rw [hstep]
    refine hwait hfree ?_
    rw [← top_of_locks hk]
    exact getElem?_set_self hi _

theorem takes_of_able (hk : k.locks = true) (hl : Locked k s) (ha : Able s) (hno : ¬Lost s) :
    Takes k s := by
  obtain ⟨i, x, hi, hx⟩ := ha
  have houtside : x.holds = false → x = .waiting ∨ ∃ c, x = .serving (some c) := by
    intro hh
    cases x with
    | waiting => exact .inl rfl
    | serving connfd =>
      obtain ⟨c, rfl⟩ := Option.isSome_iff_exists.mp hx
      exact .inr ⟨c, rfl⟩
    | accepting => cases hh
    | accepted connfd => cases hh
    | dead => cases hx
  cases hlock : s.lock with
  | none =>
    have hg := hl.guards
    rw [hlock] at hg
    exact takes_of_free hk hlock hi (houtside (hg.outside hi))
  | some j =>
    obtain ⟨y, hj, hcase⟩ := hl.owner j hlock
    obtain hy | ⟨rfl, _⟩ := hcase
    swap
    · exact absurd ⟨j, hlock, hj⟩ hno
    cases y with
    | accepting => exact takes_of_accepting hj
    | accepted connfd =>
      have hok : (machine k).ok s (.release j) := by simp [machine, ok, hj, Child.isAccepted]
      have hstep : (machine k).step s (.release j) =
          { s.move j (.serving connfd) with lock := none } := by
        simp [machine, step, hj]
      refine .after hok (by rw [hstep]; rfl) ?_
      rw [hstep]
      by_cases hij : i = j
      · subst hij
        obtain rfl : x = .accepted connfd := Option.some.inj (hi.symm.trans hj)
        obtain ⟨c, rfl⟩ := Option.isSome_iff_exists.mp hx
        exact takes_of_free hk rfl (getElem?_set_self hi _) (.inr ⟨c, rfl⟩)
      · have hout : x.holds = false := by
          cases hh : x.holds with
          | false => rfl
          | true => exact absurd (hl.guards.unique hi hj hh rfl) hij
        refine takes_of_free (i := i) hk rfl ?_ (houtside hout)
        exact (List.getElem?_set_ne fun h => hij h.symm).trans hi
    | _ => cases hy

theorem blocked_iff (hk : k.locks = true) (hl : Locked k s) :
    Blocked k s ↔ Able s ∧ Lost s := by
  constructor
  · rintro ⟨ha, hnone⟩
    refine ⟨ha, ?_⟩
    by_contra hno
    obtain ⟨es, hv, hne⟩ := takes_of_able hk hl ha hno
    exact hne (hnone es hv)
  · rintro ⟨ha, hlost⟩
    exact ⟨ha, fun es hv => taken_of_lost hk es hl hlost hv⟩

/-- No child dies with the mutex of `serv04` while others are left to wait for it. -/
def Careful (k : Server) (s : State) : Event → Prop
  | .die i => k = .serv04 → (s.children[i]?).any Child.holds = true →
      ∀ (j : Nat) (x : Child), j ≠ i → s.children[j]? = some x → x.able = false
  | _ => True

/-- A child that is at no more connections stays so. -/
theorem able_did (hd : Did k s s') (h : Able s') : Able s := by
  have hmove : ∀ {i : Nat} {x y : Child}, s.children[i]? = some x →
      (y.able = true → x.able = true) →
      (∃ (j : Nat) (z : Child), (s.children.set i y)[j]? = some z ∧ z.able = true) → Able s := by
    rintro i x y hi hxy ⟨j, z, hj, hz⟩
    obtain ⟨rfl, rfl⟩ | ⟨_, hj⟩ := Mutex.getElem?_set_cases hj
    · exact ⟨j, x, hi, hxy hz⟩
    · exact ⟨j, z, hj, hz⟩
  cases hd with
  | arrive => exact h
  | idle => exact h
  | lock i hi hfree => exact hmove hi (fun _ => rfl) h
  | accept i c queue hi hq => exact hmove hi (fun _ => rfl) h
  | acceptFails i hi => exact hmove hi (fun _ => rfl) h
  | release i connfd hi => exact hmove (y := .serving connfd) hi id h
  | finish i c hi => exact hmove hi (fun _ => rfl) h
  | die i x hi hx hk => exact hmove (y := .dead) hi (fun hf => by cases hf) h
  | exit hk =>
    obtain ⟨j, z, hj, hz⟩ := h
    obtain ⟨_, _, rfl⟩ := List.mem_map.mp (List.mem_of_getElem? hj)
    cases hz

/-- The owner that is gone after the death of `i` is `i`, with the mutex of `serv04`. -/
theorem lost_die_iff (hl : Locked k s) (hno : ¬Lost s) {i : Nat} {x : Child}
    (hi : s.children[i]? = some x) (hx : x ≠ .dead) :
    Lost { s.move i .dead with
      dropped := s.dropped ++ x.conn
      lock := if k = .serv03 ∧ s.lock = some i then none else s.lock } ↔
      x.holds = true ∧ k ≠ .serv03 := by
  constructor
  · rintro ⟨j, hlock, hj⟩
    by_cases hk3 : k = .serv03 ∧ s.lock = some i
    · simp [hk3] at hlock
    · rw [if_neg hk3] at hlock
      obtain ⟨rfl, _⟩ | ⟨_, hj⟩ := Mutex.getElem?_set_cases hj
      · obtain ⟨z, hz, hcase⟩ := hl.owner j hlock
        obtain rfl : x = z := Option.some.inj (hi.symm.trans hz)
        exact ⟨hcase.resolve_right fun h => hx h.1, fun h3 => hk3 ⟨h3, hlock⟩⟩
      · exact absurd ⟨j, hlock, hj⟩ hno
  · rintro ⟨hh, hk3⟩
    refine ⟨i, ?_, getElem?_set_self hi _⟩
    rw [if_neg fun h => hk3 h.1]
    exact hl.guards i x hi hh

theorem lost_set (h : Lost s') {i : Nat} {y : Child} (hy : y ≠ .dead)
    (hlock : s'.lock = s.lock) (hchildren : s'.children = s.children.set i y) : Lost s := by
  obtain ⟨j, hj, hdead⟩ := h
  rw [hchildren] at hdead
  obtain ⟨_, rfl⟩ | ⟨_, hdead⟩ := Mutex.getElem?_set_cases hdead
  · exact absurd rfl hy
  · exact ⟨j, hlock.symm.trans hj, hdead⟩

theorem behind_ne_dead (k : Server) (connfd : Option Nat) : k.behind connfd ≠ .dead := by
  unfold Server.behind
  split <;> simp

theorem top_ne_dead (k : Server) : k.top ≠ .dead := by
  cases k <;> simp [Server.top, Server.locks]

/-- Only a death can leave the lock without its owner. -/
theorem lost_step {e : Event} (hok : (machine k).ok s e) (hne : ∀ i, e ≠ .die i)
    (h : Lost ((machine k).step s e)) : Lost s := by
  cases e with
  | arrive => exact h
  | interrupted i => exact h
  | lock i =>
    obtain ⟨j, hj, hdead⟩ := h
    obtain rfl : i = j := Option.some.inj hj
    have hacc : ((machine k).step s (.lock i)).children[i]? = some .accepting :=
      getElem?_set_self hok.1 _
    rw [hacc] at hdead
    cases hdead
  | accept i =>
    cases hq : s.queue with
    | nil => exact absurd hq hok.2
    | cons c queue =>
      have hstep : (machine k).step s (.accept i) = { s.move i (k.behind (some c)) with
          queue := queue
          taken := s.taken ++ [(i, c)] } := by
        simp only [machine, step, hq]
      rw [hstep] at h
      exact lost_set h (behind_ne_dead k _) rfl rfl
  | acceptFails i => exact lost_set h (behind_ne_dead k _) rfl rfl
  | release i =>
    simp only [machine, step] at h
    split at h
    · obtain ⟨j, hj, _⟩ := h
      cases hj
    · exact h
  | finish i =>
    simp only [machine, step] at h
    split at h
    · exact lost_set h (top_ne_dead k) rfl rfl
    · exact h
  | die i => exact absurd rfl (hne i)

/-- A step keeps the children from waiting for ever, just when it is careful. -/
theorem blocked_step_iff (hk : k.locks = true) (hl : Locked k s) {e : Event}
    (hok : (machine k).ok s e) (hno : ¬Blocked k s) :
    ¬Blocked k ((machine k).step s e) ↔ Careful k s e := by
  have hd := step_did hok
  rw [blocked_iff hk (hl.did hk hd)]
  rw [blocked_iff hk hl] at hno
  by_cases hlost : Lost s
  · -- nobody is left to wait
    have hnone : ¬Able ((machine k).step s e) := fun ha => hno ⟨able_did hd ha, hlost⟩
    refine ⟨fun _ => ?_, fun _ h => hnone h.1⟩
    cases e with
    | die i =>
      intro _ _ j x hne hj
      cases hx : x.able with
      | false => rfl
      | true => exact absurd ⟨⟨j, x, hj, hx⟩, hlost⟩ hno
    | _ => trivial
  by_cases hdie : ∃ i, e = .die i
  swap
  · have hkeep : ¬Lost ((machine k).step s e) := fun h =>
      hlost (lost_step hok (fun i he => hdie ⟨i, he⟩) h)
    refine ⟨fun _ => ?_, fun _ h => hkeep h.2⟩
    cases e with
    | die i => exact absurd ⟨i, rfl⟩ hdie
    | _ => trivial
  obtain ⟨i, rfl⟩ := hdie
  have hok : ok s (.die i) := hok
  cases hi : s.children[i]? with
  | none => simp [ok, hi] at hok
  | some x =>
    have hx : x ≠ .dead := by simpa [ok, hi] using hok
    have hstep : (machine k).step s (.die i) = die k i x s := by
      simp only [machine, step, hi]
    rw [hstep]
    by_cases hk7 : k = .serv07
    · subst hk7
      refine ⟨fun _ h4 => (by cases h4), ?_⟩
      rintro _ ⟨⟨j, z, hj, hz⟩, _⟩
      obtain ⟨_, _, rfl⟩ := List.mem_map.mp (List.mem_of_getElem? hj)
      cases hz
    · have hdied : die k i x s = { s.move i .dead with
          dropped := s.dropped ++ x.conn
          lock := if k = .serv03 ∧ s.lock = some i then none else s.lock } := if_neg hk7
      rw [hdied, lost_die_iff hl hlost hi hx]
      have hcareful : Careful k s (.die i) ↔ (k = .serv04 → x.holds = true →
          ∀ (j : Nat) (x : Child), j ≠ i → s.children[j]? = some x → x.able = false) := by
        simp [Careful, hi]
      have hk4 : k ≠ .serv03 ↔ k = .serv04 := by
        cases k <;> simp_all [Server.locks]
      rw [hcareful, hk4]
      constructor
      · intro h h4 hh j z hne hj
        cases hz : z.able with
        | false => rfl
        | true =>
          refine absurd ⟨⟨j, z, ?_, hz⟩, hh, h4⟩ h
          exact (List.getElem?_set_ne fun he => hne he.symm).trans hj
      · rintro h ⟨⟨j, z, hj, hz⟩, hh, h4⟩
        obtain ⟨_, rfl⟩ | ⟨hne, hj⟩ := Mutex.getElem?_set_cases hj
        · cases hz
        · rw [h h4 hh j z hne hj] at hz
          cases hz

end

/-! ## Runs -/

/-- At most one child is in `accept`, and it owns the lock. -/
structure Exclusive (s : State) : Prop where
  one : ∀ i j : Nat, s.children[i]? = some .accepting → s.children[j]? = some .accepting → i = j
  owner : ∀ i : Nat, s.children[i]? = some .accepting → s.lock = some i

theorem start_locked {k : Server} (hk : k.locks = true) (nchildren : Nat) :
    Locked k (start k nchildren) where
  guards := by
    refine Mutex.Guards.clear _ _ fun x hx => ?_
    rw [List.eq_of_mem_replicate hx, top_of_locks hk]
    rfl
  owner := fun i h => by cases h

theorem runs_locked {k : Server} (hk : k.locks = true) (nchildren : Nat) {es : List Event}
    (hv : (machine k).Valid (start k nchildren) es) :
    (machine k).Always (Locked k) (start k nchildren) es :=
  Machine.always_inv (fun _ _ h hok => h.did hk (step_did hok)) (start_locked hk nchildren) hv

/-- In `serv03`, `serv04` and `serv07`, whatever the order of the steps, the interruptions and the
deaths, at most one child is in `accept` at any time. -/
theorem always_exclusive {k : Server} (hk : k.locks = true) (nchildren : Nat) (es : List Event)
    (hv : (machine k).Valid (start k nchildren) es) :
    (machine k).Always Exclusive (start k nchildren) es :=
  (runs_locked hk nchildren hv).imp fun _ h =>
    ⟨fun _ _ hi hj => h.guards.unique hi hj rfl rfl, fun i hi => h.guards i _ hi rfl⟩

/-- Two children: one accepts and serves while the other waits, and then is in `accept`. -/
def twoChildren : List Event :=
  [.lock 0, .interrupted 1, .arrive, .accept 0, .release 0, .lock 1, .finish 0, .arrive, .accept 1]

theorem always_exclusive_twoChildren :
    (machine .serv03).Always Exclusive (start .serv03 2) twoChildren :=
  always_exclusive rfl 2 twoChildren (by decide)

/-- In all four servers every connection is accepted once, in the order of arrival, and is from then
on in one place: with the child that accepted it, served, or gone with a child. -/
theorem always_served (k : Server) (nchildren : Nat) (es : List Event)
    (hv : (machine k).Valid (start k nchildren) es) :
    (machine k).Always Served (start k nchildren) es := by
  refine Machine.always_inv (fun _ _ h hok => h.did (step_did hok)) ⟨rfl, ?_, ?_⟩ hv
  · have hnone : (List.replicate nchildren k.top).flatMap Child.conn = [] := by
      refine List.flatMap_eq_nil_iff.mpr fun x hx => ?_
      rw [List.eq_of_mem_replicate hx, conn_top]
    simp [start, hnone]
  · intro i x c hi hc
    rw [List.eq_of_mem_replicate (List.mem_of_getElem? hi), conn_top] at hc
    cases hc

theorem always_served_twoChildren :
    (machine .serv03).Always Served (start .serv03 2) twoChildren :=
  always_served .serv03 2 twoChildren (by decide)

/-- The children never come to wait for a lock that nobody releases, just when no child of `serv04`
dies with the mutex while others are left. The file lock of `serv03` goes with its owner, and the
threads of `serv07` all go together. -/
theorem never_blocked_iff {k : Server} (hk : k.locks = true) (nchildren : Nat)
    (es : List Event) (hv : (machine k).Valid (start k nchildren) es) :
    (machine k).Always (fun s => ¬Blocked k s) (start k nchildren) es ↔
      (machine k).Each (Careful k) (start k nchildren) es := by
  refine Machine.always_iff_each (fun _ _ h hok => h.did hk (step_did hok))
    (fun _ _ h hok hno => blocked_step_iff hk h hok hno) (start_locked hk nchildren) ?_ hv
  rw [blocked_iff hk (start_locked hk nchildren)]
  rintro ⟨_, i, hi, _⟩
  cases hi

theorem never_blocked_iff_holderDies :
    (machine .serv04).Always (fun s => ¬Blocked .serv04 s) (start .serv04 2) [.lock 0, .die 0] ↔
      (machine .serv04).Each (Careful .serv04) (start .serv04 2) [.lock 0, .die 0] :=
  never_blocked_iff rfl 2 [.lock 0, .die 0] (by decide)

end Prefork
end Unpvol1
