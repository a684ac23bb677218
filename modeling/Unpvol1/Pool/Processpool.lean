import Mathlib.Algebra.BigOperators.Group.List.Basic
import Mathlib.Data.Nat.ModEq
import Unpvol1.Lib.Machine
import Unpvol1.Lib.Threads

/-!
# Pool.Processpool

The hand-over of new connections in the process pool of 15-1 (`15-1processpool.h`): the listen
queue, the parent that is told of arrivals, and the children that are told by the parent. All
descriptors are edge-triggered: one event stands for all arrivals since the last report.

* `search`, `dispatch` — `run_parent` on an event of `m_listenfd`.
* `accept`     — `run_child` on an event of its pipe.
* `owed`       — the events on their way, each good for one `accept`.
* `drained_iff_apart` — arrivals that coalesce are lost, and no others.
-/

namespace Unpvol1
namespace Processpool

/-- An entry of `m_sub_process` with its process: whether `m_pid` is not -1, the messages in its
pipe, whether its `epoll_wait` has an event to report, and whether it has reported one that is
still to be handled. -/
structure Child where
  live : Bool
  pipe : Nat
  event : Bool
  awake : Bool
deriving DecidableEq

/-- `queue` is the listen queue; `event` and `awake` are the parent's. -/
structure State where
  queue : Nat
  event : Bool
  awake : Bool
  subProcessCounter : Nat
  stop : Bool
  children : List Child

inductive Step where
  | arrive
  /-- `epoll_wait` of the parent returns the event of `m_listenfd`. -/
  | parentWakes
  | dispatch
  /-- `epoll_wait` of child `j` returns the event of its pipe. -/
  | childWakes (j : Nat)
  | accept (j : Nat)
deriving DecidableEq

/-- The `do` loop that looks for a child with a pid, from `i` on round to `start`. -/
def search (live : Nat → Bool) (n start : Nat) : Nat → Nat → Nat
  | 0, i => i
  | fuel + 1, i =>
    if live i then i
    else
      let i := (i + 1) % n
      if i = start then i else search live n start fuel i

def State.live (s : State) (i : Nat) : Bool := (s.children[i]?).any Child.live

/-- The child the parent finds for a new connection. -/
def State.target (s : State) : Nat :=
  search s.live s.children.length s.subProcessCounter s.children.length s.subProcessCounter

/-- `run_parent` on an event of `m_listenfd`. -/
def dispatch (s : State) : State :=
  let i := s.target
  match s.children[i]? with
  | none => { s with awake := false, stop := true }
  | some c =>
    if c.live = false then { s with awake := false, stop := true }
    else
      { s with
        awake := false
        subProcessCounter := (i + 1) % s.children.length
        children := s.children.set i { c with pipe := c.pipe + 1, event := true } }

/-- `run_child` of child `j` on an event of its pipe: one `recv`, then one `accept`. A pipe found
empty is EAGAIN, and goes on to `accept` as well. -/
def accept (j : Nat) (s : State) : State :=
  match s.children[j]? with
  | none => s
  | some c =>
    { s with
      queue := s.queue - 1
      children := s.children.set j { c with pipe := c.pipe - 1, awake := false } }

def childWakes (j : Nat) (s : State) : State :=
  match s.children[j]? with
  | none => s
  | some c => { s with children := s.children.set j { c with event := false, awake := true } }

def step (s : State) : Step → State
  | .arrive => { s with queue := s.queue + 1, event := true }
  | .parentWakes => { s with event := false, awake := true }
  | .dispatch => dispatch s
  | .childWakes j => childWakes j s
  | .accept j => accept j s

def enabled (s : State) : Step → Bool
  | .arrive => true
  | .parentWakes => s.stop = false ∧ s.event = true ∧ s.awake = false
  | .dispatch => s.stop = false ∧ s.awake = true
  | .childWakes j => (s.children[j]?).any fun c => c.live ∧ c.event ∧ c.awake = false
  | .accept j => (s.children[j]?).any fun c => c.live ∧ c.awake

def machine : Machine State Step := ⟨step, fun s i => enabled s i = true⟩

instance (s : State) (i : Step) : Decidable (machine.ok s i) :=
  inferInstanceAs (Decidable (enabled s i = true))

/-- Which of the processes have a pid; one at least. -/
abbrev Pids := { pids : List Bool // true ∈ pids }

def start (pids : Pids) : State where
  queue := 0
  event := false
  awake := false
  subProcessCounter := 0
  stop := false
  children := pids.1.map fun live => ⟨live, 0, false, false⟩

/-- No process has an event to be told of or to handle. -/
structure Quiet (s : State) : Prop where
  event : s.event = false
  awake : s.awake = false
  children : ∀ c ∈ s.children, c.event = false ∧ c.awake = false

/-- Every connection is accepted when all events have been handled. -/
def Drained (s : State) : Prop := Quiet s → s.queue = 0

/-- The step adds to an event that is still to be reported: a connection arrives before the event of
the one before is reported to the parent, or the parent tells a child that has not been told of the
message before. -/
def coalesces (s : State) : Step → Bool
  | .arrive => s.event
  | .dispatch => (s.children[s.target]?).any Child.event
  | _ => false

def Apart (s : State) (i : Step) : Prop := coalesces s i = false

instance (s : State) (i : Step) : Decidable (Apart s i) :=
  inferInstanceAs (Decidable (coalesces s i = false))

/-! ## The search -/

section
variable {live : Nat → Bool} {n start : Nat}

theorem next_mod (start k n : Nat) : ((start + k) % n + 1) % n = (start + (k + 1)) % n := by
  rw [Nat.mod_add_mod, Nat.add_assoc]

/-- The loop ends at the first live index from `start` round, by induction on what is left of the
round. -/
theorem search_first_from (hstart : start < n) {fuel k : Nat} (hk : k + fuel = n)
    (hlive : ∃ m, k ≤ m ∧ m < n ∧ live ((start + m) % n) = true) :
    ∃ m, k ≤ m ∧ m < n ∧ search live n start fuel ((start + k) % n) = (start + m) % n ∧
      live ((start + m) % n) = true ∧ ∀ m', k ≤ m' → m' < m → live ((start + m') % n) = false := by
  induction fuel generalizing k with
  | zero =>
    obtain ⟨m, hkm, hm, _⟩ := hlive
    omega
  | succ fuel ih =>
    obtain ⟨m, hkm, hm, hm'⟩ := hlive
    unfold search
    by_cases hhere : live ((start + k) % n) = true
    · rw [if_pos hhere]
      exact ⟨k, Nat.le_refl k, by omega, rfl, hhere, fun _ h h' => absurd h' (Nat.not_lt.mpr h)⟩
    · rw [if_neg hhere]
      have hne : m ≠ k := fun he => hhere (he ▸ hm')
      have hfar : (start + (k + 1)) % n ≠ start := by
        intro he
        rcases Nat.lt_or_ge (start + (k + 1)) n with hlt | hge
        · rw [Nat.mod_eq_of_lt hlt] at he
          omega
        · rw [Nat.mod_eq_sub_mod hge, Nat.mod_eq_of_lt (by omega)] at he
          omega
      simp only [next_mod, hfar, if_false]
      obtain ⟨m₁, hkm₁, hm₁, hfound, hlive₁, hdead⟩ :=
        ih (k := k + 1) (by omega) ⟨m, by omega, hm, hm'⟩
      refine ⟨m₁, by omega, hm₁, hfound, hlive₁, fun m' h h' => ?_⟩
      rcases Nat.eq_or_lt_of_le h with rfl | hlt
      · exact Bool.not_eq_true _ ▸ hhere
      · exact hdead m' hlt h'

theorem search_first (hstart : start < n) (hlive : ∃ m, m < n ∧ live ((start + m) % n) = true) :
    ∃ m, m < n ∧ search live n start n start = (start + m) % n ∧
      live ((start + m) % n) = true ∧ ∀ m', m' < m → live ((start + m') % n) = false := by
  obtain ⟨m, hm, hm'⟩ := hlive
  have h := search_first_from hstart (Nat.zero_add n) ⟨m, Nat.zero_le m, hm, hm'⟩
  rw [Nat.add_zero, Nat.mod_eq_of_lt hstart] at h
  obtain ⟨m₁, _, hm₁, hfound, hlive₁, hdead⟩ := h
  exact ⟨m₁, hm₁, hfound, hlive₁, fun m' => hdead m' (Nat.zero_le m')⟩

/-- Every index is some way round from `start`. -/
theorem exists_round {j : Nat} (hstart : start ≤ n) (hj : j < n) :
    ∃ m, m < n ∧ (start + m) % n = j := by
  refine ⟨(j + n - start) % n, Nat.mod_lt _ (Nat.zero_lt_of_lt hj), ?_⟩
  rw [Nat.add_mod_mod, show start + (j + n - start) = j + n by omega, Nat.add_mod_right,
    Nat.mod_eq_of_lt hj]

/-- The last step of a round. -/
theorem last_round {c : Nat} (hc : c < n) : (c + 1 + (n - 1)) % n = c := by
  rw [show c + 1 + (n - 1) = c + n by omega, Nat.add_mod_right, Nat.mod_eq_of_lt hc]

theorem search_finds (hstart : start < n) {j : Nat} (hj : j < n) (hlive : live j = true) :
    live (search live n start n start) = true := by
  obtain ⟨m, hm, rfl⟩ := exists_round (Nat.le_of_lt hstart) hj
  obtain ⟨m', _, hfound, hlive', _⟩ := search_first hstart ⟨m, hm, hlive⟩
  rw [hfound]
  exact hlive'

theorem round_inj (start : Nat) {m m' : Nat} (hm : m < n) (hm' : m' < n)
    (h : (start + m) % n = (start + m') % n) : m = m' := by
  have hmod : Nat.ModEq n m m' := Nat.ModEq.add_left_cancel' start h
  exact Nat.ModEq.eq_of_lt_of_lt hmod hm hm'

end

/-! ## Events and connections -/

def Child.owed (c : Child) : Nat := c.event.toNat + c.awake.toNat

/-- The events on their way, to the parent and to the children. -/
def State.owed (s : State) : Nat :=
  s.event.toNat + s.awake.toNat + (s.children.map Child.owed).sum

/-- The connections that no event will bring to `accept`. -/
def State.lost (s : State) : Nat := s.queue - s.owed

/-- No more events than connections; the parent goes on, and tells only children with a pid. -/
structure Inv (s : State) : Prop where
  owed_le : s.owed ≤ s.queue
  counter_lt : s.subProcessCounter < s.children.length
  alive : ∃ c ∈ s.children, c.live = true
  dead : ∀ c ∈ s.children, c.live = false → c.owed = 0
  going : s.stop = false

section
variable {s : State}

theorem Inv.target (h : Inv s) : ∃ c, s.children[s.target]? = some c ∧ c.live = true := by
  obtain ⟨c, hc, hlive⟩ := h.alive
  obtain ⟨j, hj, rfl⟩ := List.getElem_of_mem hc
  have hfound : s.live s.target = true :=
    search_finds h.counter_lt hj (by simp [State.live, hj, hlive])
  simpa [State.live, Option.any_eq_true] using hfound

/-- The events after one child has changed its own. -/
theorem sum_setChild {j : Nat} {c : Child} (hj : s.children[j]? = some c) (c' : Child) :
    ((s.children.set j c').map Child.owed).sum + c.owed =
      (s.children.map Child.owed).sum + c'.owed :=
  Threads.sum_move Child.owed hj c'

/-- What connections and events are after a step: `accept` takes one of each, and a step that
coalesces adds a connection for which there is no event, or takes an event away. -/
def Balanced (s s' : State) (b : Bool) : Prop :=
  s'.queue + s.owed = s.queue + s'.owed + b.toNat

theorem arrive_balanced : Balanced s (step s .arrive) s.event := by
  simp only [Balanced, step, State.owed, Bool.toNat_true]
  omega

theorem parentWakes_balanced (hev : s.event = true) (haw : s.awake = false) :
    Balanced s (step s .parentWakes) false := by
  simp [Balanced, step, State.owed, hev, haw]

/-- The state after the parent has told child `i`. -/
def State.told (s : State) (i : Nat) (c : Child) : State :=
  { s with
    awake := false
    subProcessCounter := (i + 1) % s.children.length
    children := s.children.set i { c with pipe := c.pipe + 1, event := true } }

theorem dispatch_eq {c : Child} (hc : s.children[s.target]? = some c) (hlive : c.live = true) :
    dispatch s = s.told s.target c := by
  simp [dispatch, State.told, hc, hlive]

theorem told_balanced {i : Nat} {c : Child} (hc : s.children[i]? = some c)
    (haw : s.awake = true) : Balanced s (s.told i c) c.event := by
  have hsum : ((s.told i c).children.map Child.owed).sum + (c.event.toNat + c.awake.toNat) =
      (s.children.map Child.owed).sum + (1 + c.awake.toNat) := sum_setChild hc _
  simp only [Balanced, State.told, State.owed, haw, Bool.toNat_true, Bool.toNat_false] at hsum ⊢
  omega

theorem childWakes_balanced {j : Nat} {c : Child} (hc : s.children[j]? = some c)
    (hev : c.event = true) (haw : c.awake = false) : Balanced s (childWakes j s) false := by
  have hsum : ((s.children.set j { c with event := false, awake := true }).map Child.owed).sum +
      (c.event.toNat + c.awake.toNat) = (s.children.map Child.owed).sum + (0 + 1) :=
    sum_setChild hc _
  simp only [hev, haw, Bool.toNat_true, Bool.toNat_false] at hsum
  simp only [Balanced, childWakes, hc, State.owed, Bool.toNat_false]
  omega

/-- The event a child handles stands for a connection, so `accept` finds one. -/
theorem accept_balanced (h : s.owed ≤ s.queue) {j : Nat} {c : Child}
    (hc : s.children[j]? = some c) (haw : c.awake = true) : Balanced s (accept j s) false := by
  have hsum :
      ((s.children.set j { c with pipe := c.pipe - 1, awake := false }).map Child.owed).sum +
        (c.event.toNat + c.awake.toNat) = (s.children.map Child.owed).sum + (c.event.toNat + 0) :=
    sum_setChild hc _
  rw [haw, Bool.toNat_true] at hsum
  simp only [State.owed] at h
  simp only [Balanced, accept, hc, State.owed, Bool.toNat_false]
  omega

theorem Balanced.owed_le {s' : State} {b : Bool} (hb : Balanced s s' b) (h : s.owed ≤ s.queue) :
    s'.owed ≤ s'.queue := by
  unfold Balanced at hb
  omega

theorem Balanced.lost {s' : State} {b : Bool} (hb : Balanced s s' b) (h : s.owed ≤ s.queue) :
    s'.lost = s.lost + b.toNat := by
  unfold Balanced at hb
  unfold State.lost
  omega

/-- A step of a child, or of the parent on one, keeps the invariant. -/
theorem Inv.setChild {s' : State} {b : Bool} (h : Inv s) (hb : Balanced s s' b) {j : Nat}
    {c : Child} (hj : s.children[j]? = some c) (c' : Child) (hlive : c'.live = true)
    (hchildren : s'.children = s.children.set j c')
    (hcounter : s'.subProcessCounter < s.children.length) (hstop : s'.stop = s.stop) :
    Inv s' where
  owed_le := hb.owed_le h.owed_le
  counter_lt := by rwa [hchildren, List.length_set]
  alive := by
    have hlt : j < s.children.length := (List.getElem?_eq_some_iff.mp hj).1
    exact ⟨c', by rw [hchildren]; exact List.mem_set hlt c', hlive⟩
  dead := by
    rw [hchildren]
    intro d hd hdead
    rcases List.mem_or_eq_of_mem_set hd with hmem | rfl
    · exact h.dead d hmem hdead
    · rw [hlive] at hdead
      cases hdead
  going := hstop.trans h.going

theorem step_inv (h : Inv s) {i : Step} (hok : machine.ok s i) :
    Inv (machine.step s i) ∧ Balanced s (machine.step s i) (coalesces s i) := by
  cases i with
  | arrive =>
    have hb : Balanced s (step s .arrive) s.event := arrive_balanced
    exact ⟨⟨hb.owed_le h.owed_le, h.counter_lt, h.alive, h.dead, h.going⟩, hb⟩
  | parentWakes =>
    obtain ⟨_, hev, haw⟩ : s.stop = false ∧ s.event = true ∧ s.awake = false := by
      simpa [machine, enabled] using hok
    have hb := parentWakes_balanced hev haw
    exact ⟨⟨hb.owed_le h.owed_le, h.counter_lt, h.alive, h.dead, h.going⟩, hb⟩
  | dispatch =>
    obtain ⟨_, haw⟩ : s.stop = false ∧ s.awake = true := by simpa [machine, enabled] using hok
    obtain ⟨c, hc, hlive⟩ := h.target
    have hb := told_balanced hc haw
    have hstep : machine.step s .dispatch = s.told s.target c := dispatch_eq hc hlive
    have hco : coalesces s .dispatch = c.event := by simp [coalesces, hc]
    rw [hstep, hco]
    have hlt : 0 < s.children.length := Nat.zero_lt_of_lt h.counter_lt
    refine ⟨h.setChild hb hc { c with pipe := c.pipe + 1, event := true } hlive rfl ?_ rfl, hb⟩
    exact Nat.mod_lt _ hlt
  | childWakes j =>
    obtain ⟨c, hc, hen⟩ := (Option.any_eq_true ..).mp hok
    obtain ⟨hlive, hev, haw⟩ := of_decide_eq_true hen
    have hb := childWakes_balanced hc hev haw
    refine ⟨h.setChild hb hc { c with event := false, awake := true } hlive ?_ ?_ ?_, hb⟩
    all_goals simp [machine, step, childWakes, hc, h.counter_lt]
  | accept j =>
    obtain ⟨c, hc, hen⟩ := (Option.any_eq_true ..).mp hok
    obtain ⟨hlive, haw⟩ := of_decide_eq_true hen
    have hb := accept_balanced h.owed_le hc haw
    refine ⟨h.setChild hb hc { c with pipe := c.pipe - 1, awake := false } hlive ?_ ?_ ?_, hb⟩
    all_goals simp [machine, step, accept, hc, h.counter_lt]

theorem Quiet.owed (h : Quiet s) : s.owed = 0 := by
  have hsum : (s.children.map Child.owed).sum = 0 := by
    refine List.sum_eq_zero fun n hn => ?_
    obtain ⟨c, hc, rfl⟩ := List.mem_map.mp hn
    simp [Child.owed, h.children c hc]
  simp [State.owed, h.event, h.awake, hsum]

/-- Where nothing is lost, the events bring all connections to `accept`. -/
theorem drained_of_lost (h : s.lost = 0) : Drained s := by
  intro hq
  rwa [State.lost, hq.owed, Nat.sub_zero] at h

/-! ## Letting the events be handled -/

def Step.isWakeup : Step → Bool
  | .arrive => false
  | _ => true

def Child.work (c : Child) : Nat := 2 * c.event.toNat + c.awake.toNat

/-- How many steps the events on their way can still cause, at most. -/
def State.work (s : State) : Nat :=
  4 * s.event.toNat + 3 * s.awake.toNat + (s.children.map Child.work).sum

theorem not_quiet (h : ¬Quiet s) :
    s.awake = true ∨ s.awake = false ∧ s.event = true ∨ ∃ c ∈ s.children, c.owed ≠ 0 := by
  by_contra hno
  simp only [not_or, not_and, not_exists, Bool.not_eq_true] at hno
  obtain ⟨haw, hev, hch⟩ := hno
  refine h ⟨hev haw, haw, fun c hc => ?_⟩
  have hzero := not_not.mp (hch c hc)
  unfold Child.owed at hzero
  cases hce : c.event <;> cases hca : c.awake <;> simp_all

/-- While there is an event on its way, some process can take a step towards handling it. -/
theorem progress (h : Inv s) (hq : ¬Quiet s) :
    ∃ w : Step, w.isWakeup = true ∧ machine.ok s w ∧ (machine.step s w).work < s.work := by
  rcases not_quiet hq with haw | ⟨haw, hev⟩ | ⟨c, hc, howed⟩
  · obtain ⟨c, hc, hlive⟩ := h.target
    have hstep : machine.step s .dispatch = s.told s.target c := dispatch_eq hc hlive
    refine ⟨.dispatch, rfl, by simp [machine, enabled, h.going, haw], ?_⟩
    have hsum : ((s.told s.target c).children.map Child.work).sum +
        (2 * c.event.toNat + c.awake.toNat) =
        (s.children.map Child.work).sum + (2 * 1 + c.awake.toNat) :=
      Threads.sum_move Child.work hc _
    rw [hstep]
    simp only [State.work, State.told, haw, Bool.toNat_true, Bool.toNat_false] at hsum ⊢
    omega
  · refine ⟨.parentWakes, rfl, by simp [machine, enabled, h.going, haw, hev], ?_⟩
    simp [machine, step, State.work, haw, hev]
  · obtain ⟨j, hj⟩ := List.getElem?_of_mem hc
    have hlive : c.live = true := by
      by_contra hdead
      exact howed (h.dead c hc (Bool.not_eq_true _ ▸ hdead))
    cases haw : c.awake with
    | true =>
      refine ⟨.accept j, rfl, by simp [machine, enabled, hj, hlive, haw], ?_⟩
      have hsum :
          ((s.children.set j { c with pipe := c.pipe - 1, awake := false }).map Child.work).sum +
          (2 * c.event.toNat + c.awake.toNat) =
          (s.children.map Child.work).sum + (2 * c.event.toNat + 0) :=
        Threads.sum_move Child.work hj _
      rw [haw, Bool.toNat_true] at hsum
      simp only [machine, step, accept, hj, State.work]
      omega
    | false =>
      have hev : c.event = true := by
        unfold Child.owed at howed
        rw [haw] at howed
        cases hce : c.event with
        | true => rfl
        | false => simp [hce] at howed
      refine ⟨.childWakes j, rfl, by simp [machine, enabled, hj, hlive, haw, hev], ?_⟩
      have hsum :
          ((s.children.set j { c with event := false, awake := true }).map Child.work).sum +
          (2 * c.event.toNat + c.awake.toNat) = (s.children.map Child.work).sum + (2 * 0 + 1) :=
        Threads.sum_move Child.work hj _
      rw [haw, hev, Bool.toNat_true, Bool.toNat_false] at hsum
      simp only [machine, step, childWakes, hj, State.work]
      omega

/-- All events can be handled, by wake-ups alone. -/
theorem settles (h : Inv s) : ∃ ws : List Step, (∀ w ∈ ws, w.isWakeup = true) ∧
    machine.Valid s ws ∧ Quiet (machine.run s ws) := by
  induction hn : s.work using Nat.strongRecOn generalizing s with
  | _ n ih =>
    by_cases hq : Quiet s
    · exact ⟨[], by simp, trivial, hq⟩
    · obtain ⟨w, hw, hok, hlt⟩ := progress h hq
      obtain ⟨ws, hws, hv, hquiet⟩ := ih _ (hn ▸ hlt) (step_inv h hok).1 rfl
      exact ⟨w :: ws, List.forall_mem_cons.mpr ⟨hw, hws⟩, ⟨hok, hv⟩, hquiet⟩

/-! ## Runs -/

/-- What is lost stays lost, and every step that is not apart loses a connection. -/
theorem lost_run (h : Inv s) {is : List Step} (hv : machine.Valid s is) :
    Inv (machine.run s is) ∧ s.lost ≤ (machine.run s is).lost ∧
      (¬machine.Each Apart s is → s.lost < (machine.run s is).lost) := by
  induction is generalizing s with
  | nil => exact ⟨h, Nat.le_refl _, fun hno => absurd trivial hno⟩
  | cons i is ih =>
    obtain ⟨hinv, hb⟩ := step_inv h hv.1
    have hlost := hb.lost h.owed_le
    obtain ⟨hrun, hle, hlt⟩ := ih hinv hv.2
    refine ⟨hrun, by rw [Machine.run_cons]; omega, fun hno => ?_⟩
    rw [Machine.run_cons]
    by_cases hap : Apart s i
    · have hrest := hlt fun heach => hno ⟨hap, heach⟩
      omega
    · have hco : coalesces s i = true := by simpa [Apart] using hap
      rw [hco, Bool.toNat_true] at hlost
      omega

theorem start_inv (pids : Pids) : Inv (start pids) ∧ (start pids).lost = 0 := by
  have howed : ∀ c ∈ (start pids).children, c.owed = 0 := by
    intro c hc
    obtain ⟨live, _, rfl⟩ := List.mem_map.mp hc
    rfl
  have hsum : ((start pids).children.map Child.owed).sum = 0 :=
    List.sum_eq_zero fun n hn => by
      obtain ⟨c, hc, rfl⟩ := List.mem_map.mp hn
      exact howed c hc
  have hzero : (start pids).owed = 0 := by
    unfold State.owed
    rw [hsum]
    rfl
  refine ⟨⟨Nat.le_of_eq hzero, ?_, ?_, fun c hc _ => howed c hc, rfl⟩, Nat.zero_sub _⟩
  · simpa [start] using List.length_pos_of_mem pids.2
  · exact ⟨⟨true, 0, false, false⟩, List.mem_map.mpr ⟨true, pids.2, rfl⟩, rfl⟩

/-- In a run in which no arrival and no message adds to an event still to be reported, every
arrived connection is accepted once all events are handled. In any other run this fails at the
latest when the events on their way have been handled. -/
theorem drained_iff_apart (pids : Pids) (is : List Step)
    (hv : machine.Valid (start pids) is) :
    (machine.Each Apart (start pids) is → machine.Always Drained (start pids) is) ∧
      (¬machine.Each Apart (start pids) is → ∃ ws : List Step, (∀ w ∈ ws, w.isWakeup = true) ∧
        machine.Valid (start pids) (is ++ ws) ∧
        ¬Drained (machine.run (start pids) (is ++ ws))) := by
  obtain ⟨hinv, hzero⟩ := start_inv pids
  constructor
  · intro heach
    have halways : machine.Always (fun s => Inv s ∧ s.lost = 0) (start pids) is := by
      refine Machine.always_inv_of_each (fun s i h hok hap => ?_) ⟨hinv, hzero⟩ hv heach
      obtain ⟨hnext, hb⟩ := step_inv h.1 hok
      have hco : coalesces s i = false := hap
      exact ⟨hnext, by rw [hb.lost h.1.owed_le, h.2, hco]; rfl⟩
    exact halways.imp fun s h => drained_of_lost h.2
  · intro hno
    obtain ⟨hrun, _, hlost⟩ := lost_run hinv hv
    obtain ⟨ws, hws, hvws, hquiet⟩ := settles hrun
    obtain ⟨_, hle, _⟩ := lost_run hrun hvws
    refine ⟨ws, hws, Machine.valid_append.mpr ⟨hv, hvws⟩, fun hd => ?_⟩
    rw [Machine.run_append] at hd
    have hqueue := hd hquiet
    have hpos := hlost hno
    unfold State.lost at hle hpos
    omega

end

def twoPids : Pids := ⟨[true, true], by decide⟩

/-- Two connections, the second while the parent dispatches the first. -/
def twoClients : List Step :=
  [.arrive, .parentWakes, .arrive, .dispatch, .parentWakes, .dispatch, .childWakes 0, .accept 0,
    .childWakes 1, .accept 1]

theorem drained_iff_apart_twoClients :
    (machine.Each Apart (start twoPids) twoClients →
        machine.Always Drained (start twoPids) twoClients) ∧
      (¬machine.Each Apart (start twoPids) twoClients →
        ∃ ws : List Step, (∀ w ∈ ws, w.isWakeup = true) ∧
          machine.Valid (start twoPids) (twoClients ++ ws) ∧
          ¬Drained (machine.run (start twoPids) (twoClients ++ ws))) :=
  drained_iff_apart twoPids twoClients (by decide)

/-- Two connections arrive before the parent wakes. -/
def together : List Step :=
  [.arrive, .arrive, .parentWakes, .dispatch, .childWakes 0, .accept 0]

theorem not_drained :
    machine.Valid (start twoPids) together ∧ ¬machine.Always Drained (start twoPids) together := by
  refine ⟨by decide, fun h => ?_⟩
  have hqueue : (machine.run (start twoPids) together).queue = 0 :=
    h.last ⟨by decide, by decide, by decide⟩
  have hone : (machine.run (start twoPids) together).queue = 1 := by decide
  omega

end Processpool
end Unpvol1
