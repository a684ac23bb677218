import Mathlib.Data.Finset.Card
import Mathlib.Data.Int.Interval
import Unpvol1.Lib.Machine

/-!
# Unp.SelectServ

The echo server on `select` (`6chp/tcpservselect01.c`). A step of the machine is `select`, `accept`
with what follows it, or one turn of the scan of `client[]`.

* `findSlot` — the loop that looks for a free entry.
* `Tables`   — `client[]`, `allset`, `maxi` and `maxfd` describe the same descriptors.
* `Scanning` — in a scan: what `select` reported is served, or still to come.
* `rounds_serve` — both at the top of every round.
-/

namespace Unpvol1
namespace SelectServ

def FD_SETSIZE : Nat := 1024

inductive Read where
  | eof
  | data (bs : List UInt8)
  | error
deriving DecidableEq

/-- A call that concerns a client. `write` with `none` is the one with the length -1 after a `read`
that failed. -/
inductive Act where
  | accept (connfd : Int)
  | read (fd : Int)
  | close (fd : Int)
  | write (fd : Int) (bytes : Option (List UInt8))
deriving DecidableEq

inductive Pc where
  | top
  | accept
  | scan (i : Nat)
  | exited
deriving DecidableEq

/-- The variables of `main`. `opened` are the descriptors that are open; `reported` is what the last
`select` reported ready, and `log` what was done since. -/
structure State where
  listenfd : Int
  client : Nat → Int
  maxi : Int
  maxfd : Int
  allset : Finset Int
  rset : Finset Int
  nready : Int
  pc : Pc
  opened : Finset Int
  reported : Finset Int
  log : List Act

inductive Event where
  /-- The descriptors that are ready, or a failure. -/
  | select (ready : Option (Finset Int))
  | accept (connfd : Int)
  /-- A turn of the scan, with what `read` comes to if it is called. -/
  | turn (read : Read)

/-- The first index from `i` on with a free entry; `fuel` more are left. -/
def findSlot (client : Nat → Int) : Nat → Nat → Nat
  | 0, i => i
  | fuel + 1, i => if client i < 0 then i else findSlot client fuel (i + 1)

/-- The condition of the scan at `i`. -/
def State.scanAt (s : State) (i : Nat) : State :=
  { s with pc := if (i : Int) ≤ s.maxi then .scan i else .top }

/-- `select` leaves the set alone when it fails; the call is not checked. -/
def select (ready : Option (Finset Int)) (s : State) : State :=
  let s : State :=
    match ready with
    | none => { s with rset := s.allset, nready := -1, reported := ∅, log := [] }
    | some ready => { s with rset := ready, nready := ready.card, reported := ready, log := [] }
  if s.listenfd ∈ s.rset then { s with pc := .accept } else s.scanAt 0

def accept (connfd : Int) (s : State) : State :=
  let s : State := { s with opened := insert connfd s.opened, log := s.log ++ [.accept connfd] }
  let i := findSlot s.client FD_SETSIZE 0
  if i = FD_SETSIZE then { s with pc := .exited }
  else
    let s : State :=
      { s with
        client := Function.update s.client i connfd
        allset := insert connfd s.allset
        maxfd := if connfd > s.maxfd then connfd else s.maxfd
        maxi := if (i : Int) > s.maxi then i else s.maxi
        nready := s.nready - 1 }
    if s.nready ≤ 0 then { s with pc := .top } else s.scanAt 0

/-- The `read` of a client that is ready, and what follows it. -/
def serve (read : Read) (i : Nat) (s : State) : State :=
  let sockfd := s.client i
  match read with
  | .eof =>
    { s with
      opened := s.opened.erase sockfd
      allset := s.allset.erase sockfd
      client := Function.update s.client i (-1)
      log := s.log ++ [.read sockfd, .close sockfd] }
  | .data bs => { s with log := s.log ++ [.read sockfd, .write sockfd (some bs)] }
  | .error => { s with log := s.log ++ [.read sockfd, .write sockfd none] }

/-- The body of the scan at `i`. -/
def turn (read : Read) (i : Nat) (s : State) : State :=
  let sockfd := s.client i
  if sockfd < 0 then s.scanAt (i + 1)
  else if sockfd ∈ s.rset then
    let s := serve read i s
    let s : State := { s with nready := s.nready - 1 }
    if s.nready ≤ 0 then { s with pc := .top } else s.scanAt (i + 1)
  else s.scanAt (i + 1)

def step (s : State) : Event → State
  | .select ready => select ready s
  | .accept connfd => accept connfd s
  | .turn read =>
    match s.pc with
    | .scan i => turn read i s
    | _ => s

def Pc.isScan : Pc → Bool
  | .scan _ => true
  | _ => false

/-- `select` waits until some of the descriptors up to `maxfd` is ready; `accept` succeeds with a
descriptor that is below `FD_SETSIZE` and not open. -/
def ok (s : State) : Event → Prop
  | .select none => s.pc = .top
  | .select (some ready) => s.pc = .top ∧ ready.Nonempty ∧ ready ⊆ s.allset ∧
      ∀ fd ∈ ready, fd ≤ s.maxfd
  | .accept connfd => s.pc = .accept ∧ 0 ≤ connfd ∧ connfd < FD_SETSIZE ∧ connfd ∉ s.opened
  | .turn _ => s.pc.isScan = true

instance (s : State) : (e : Event) → Decidable (ok s e)
  | .select none => inferInstanceAs (Decidable (s.pc = .top))
  | .select (some ready) => inferInstanceAs (Decidable (s.pc = .top ∧ ready.Nonempty ∧
      ready ⊆ s.allset ∧ ∀ fd ∈ ready, fd ≤ s.maxfd))
  | .accept connfd => inferInstanceAs (Decidable (s.pc = .accept ∧ 0 ≤ connfd ∧
      connfd < FD_SETSIZE ∧ connfd ∉ s.opened))
  | .turn _ => inferInstanceAs (Decidable (s.pc.isScan = true))

def machine : Machine State Event := ⟨step, ok⟩

instance (s : State) (e : Event) : Decidable (machine.ok s e) :=
  inferInstanceAs (Decidable (ok s e))

/-- A descriptor that fits in an `fd_set`. -/
abbrev Listenfd := { fd : Int // 0 ≤ fd ∧ fd < FD_SETSIZE }

def start (listenfd : Listenfd) : State where
  listenfd := listenfd
  client := fun _ => -1
  maxi := -1
  maxfd := listenfd
  allset := {listenfd.1}
  rset := ∅
  nready := 0
  pc := .top
  opened := {listenfd.1}
  reported := ∅
  log := []

/-- The descriptors that were served: the listening socket by `accept`, a client by `read`. -/
def served (listenfd : Int) (log : List Act) : List Int :=
  log.filterMap fun
    | .accept _ => some listenfd
    | .read fd => some fd
    | _ => none

theorem served_append (fd : Int) (log acts : List Act) :
    served fd (log ++ acts) = served fd log ++ served fd acts := List.filterMap_append

/-- `client[]` holds `fd` at `j`. -/
def State.holds (s : State) (j : Nat) (fd : Int) : Prop :=
  j < FD_SETSIZE ∧ s.client j = fd ∧ 0 ≤ fd

/-- The four tables agree, with each other and with the descriptors that are open. -/
structure Tables (s : State) : Prop where
  range : ∀ fd ∈ s.allset, 0 ≤ fd ∧ fd < FD_SETSIZE
  allset : ∀ fd, fd ∈ s.allset ↔ fd = s.listenfd ∨ ∃ j, s.holds j fd
  distinct : ∀ i j fd, s.holds i fd → s.holds j fd → i = j
  notListen : ∀ j, ¬s.holds j s.listenfd
  maxfd : ∀ fd ∈ s.allset, fd ≤ s.maxfd
  maxi : ∀ j fd, s.holds j fd → (j : Int) ≤ s.maxi
  maxi_lt : s.maxi < FD_SETSIZE
  opened : s.opened = s.allset

/-- Every descriptor that was reported has been served, and once. -/
structure Complete (s : State) : Prop where
  nodup : (served s.listenfd s.log).Nodup
  all : ∀ fd ∈ s.reported, fd ∈ served s.listenfd s.log

/-- Before turn `i` of the scan: what was reported and not yet served is at `i` or behind, and
`nready` counts it. -/
structure Scanning (s : State) (i : Nat) : Prop where
  rset : s.rset = s.reported
  nodup : (served s.listenfd s.log).Nodup
  sub : ∀ fd ∈ served s.listenfd s.log, fd ∈ s.reported
  count : s.nready + (served s.listenfd s.log).length = s.reported.card
  ahead : ∀ fd ∈ s.reported, fd ∉ served s.listenfd s.log → ∃ j, i ≤ j ∧ s.holds j fd
  behind : ∀ fd ∈ served s.listenfd s.log, ∀ j, i ≤ j → ¬s.holds j fd

/-- Before `accept`. After a failed `select` everything is in `rset`. -/
structure Accepting (s : State) : Prop where
  listen : s.listenfd ∈ s.rset
  rset : s.rset ⊆ s.allset
  log : s.log = []
  counted : s.reported = s.rset ∧ s.nready = s.rset.card ∨ s.reported = ∅ ∧ s.nready ≤ 0

/-- The state at each place of the loop. -/
def Inv (s : State) : Prop :=
  match s.pc with
  | .top => Tables s ∧ Complete s
  | .accept => Tables s ∧ Accepting s
  | .scan i => Tables s ∧ Scanning s i ∧ (i : Int) ≤ s.maxi
  | .exited => False

section
variable {s : State}

/-! ## Slots -/

/-- The slot is free, unless all are taken. -/
theorem findSlot_spec (client : Nat → Int) (fuel i : Nat) :
    (findSlot client fuel i < i + fuel ∧ client (findSlot client fuel i) < 0) ∨
      (findSlot client fuel i = i + fuel ∧ ∀ j, i ≤ j → j < i + fuel → 0 ≤ client j) := by
  induction fuel generalizing i with
  | zero => exact .inr ⟨rfl, fun j h h' => absurd h' (Nat.not_lt.mpr h)⟩
  | succ fuel ih =>
    unfold findSlot
    by_cases hfree : client i < 0
    · rw [if_pos hfree]
      exact .inl ⟨by omega, hfree⟩
    · rw [if_neg hfree]
      rcases ih (i + 1) with ⟨hlt, hneg⟩ | ⟨heq, hall⟩
      · exact .inl ⟨by omega, hneg⟩
      · refine .inr ⟨by omega, fun j hj hj' => ?_⟩
        rcases Nat.eq_or_lt_of_le hj with rfl | hgt
        · omega
        · exact hall j hgt (by omega)

/-- There is a free slot: fewer descriptors fit in `allset` than there are slots. -/
theorem Tables.slot (h : Tables s) {connfd : Int} (h0 : 0 ≤ connfd) (hlt : connfd < FD_SETSIZE)
    (hnew : connfd ∉ s.opened) : findSlot s.client FD_SETSIZE 0 < FD_SETSIZE ∧
      s.client (findSlot s.client FD_SETSIZE 0) < 0 := by
  have hspec := findSlot_spec s.client FD_SETSIZE 0
  rw [Nat.zero_add] at hspec
  rcases hspec with hfree | ⟨_, hfull⟩
  · exact hfree
  · have hholds : ∀ j, j < FD_SETSIZE → s.holds j (s.client j) := fun j hj =>
      ⟨hj, rfl, hfull j (Nat.zero_le j) hj⟩
    have hcard : ((Finset.Ico (0 : Int) FD_SETSIZE).erase connfd).card <
        (Finset.range FD_SETSIZE).card := by
      rw [Finset.card_erase_of_mem (Finset.mem_Ico.mpr ⟨h0, hlt⟩), Int.card_Ico,
        Finset.card_range]
      decide
    obtain ⟨i, hi, j, hj, hne, hsame⟩ := Finset.exists_ne_map_eq_of_card_lt_of_maps_to
      (f := s.client) hcard (by
        intro j hj
        have hj := hholds j (Finset.mem_range.mp hj)
        have hmem := (h.allset _).mpr (.inr ⟨j, hj⟩)
        refine Finset.mem_erase.mpr ⟨fun he => hnew ?_, Finset.mem_Ico.mpr (h.range _ hmem)⟩
        rw [h.opened, ← he]
        exact hmem)
    have hi := hholds i (Finset.mem_range.mp hi)
    rw [hsame] at hi
    exact absurd (h.distinct i j _ hi (hholds j (Finset.mem_range.mp hj))) hne

/-! ## The tables -/

theorem State.holds_update {i j : Nat} {fd fd' : Int} :
    ({ s with client := Function.update s.client i fd' } : State).holds j fd ↔
      (j ≠ i ∧ s.holds j fd) ∨ (j = i ∧ i < FD_SETSIZE ∧ fd' = fd ∧ 0 ≤ fd) := by
  unfold State.holds
  by_cases hj : j = i
  · subst hj
    simp
  · simp [hj]

/-- With a descriptor put into a free slot, it is held, and what was held still is. -/
theorem State.held_put {i : Nat} {connfd : Int} (hi : i < FD_SETSIZE) (hfree : s.client i < 0)
    (h0 : 0 ≤ connfd) (fd : Int) :
    (∃ j, ({ s with client := Function.update s.client i connfd } : State).holds j fd) ↔
      fd = connfd ∨ ∃ j, s.holds j fd := by
  refine (exists_congr fun j => State.holds_update).trans ?_
  constructor
  · rintro ⟨j, ⟨_, hh⟩ | ⟨_, _, rfl, _⟩⟩
    · exact .inr ⟨j, hh⟩
    · exact .inl rfl
  · rintro (rfl | ⟨j, hh⟩)
    · exact ⟨i, .inr ⟨rfl, hi, rfl, h0⟩⟩
    · refine ⟨j, .inl ⟨?_, hh⟩⟩
      rintro rfl
      have hat := hh.2.1
      have hpos := hh.2.2
      omega

/-- `maxfd` and `maxi` are raised, never lowered. -/
theorem le_raised {x a b : Int} (h : x ≤ a ∨ x ≤ b) : x ≤ if b > a then b else a := by
  split
  · omega
  · omega

/-- An entry that takes over a free slot. -/
theorem Tables.add (h : Tables s) {connfd : Int} (h0 : 0 ≤ connfd) (hlt : connfd < FD_SETSIZE)
    (hnew : connfd ∉ s.opened) {i : Nat} (hi : i < FD_SETSIZE) (hfree : s.client i < 0)
    {log : List Act} {nready : Int} : Tables { s with
      opened := insert connfd s.opened
      log := log
      client := Function.update s.client i connfd
      allset := insert connfd s.allset
      maxfd := if connfd > s.maxfd then connfd else s.maxfd
      maxi := if (i : Int) > s.maxi then i else s.maxi
      nready := nready } := by
  have hunused : ∀ j, ¬s.holds j connfd := fun j hh =>
    hnew (h.opened ▸ (h.allset connfd).mpr (.inr ⟨j, hh⟩))
  have hholds : ∀ j fd, _ := fun j fd => @State.holds_update s i j fd connfd
  refine
    { range := ?_
      allset := ?_
      distinct := ?_
      notListen := ?_
      maxfd := ?_
      maxi := ?_
      maxi_lt := ?_
      opened := congrArg (insert connfd) h.opened }
  · intro fd hfd
    rcases Finset.mem_insert.mp hfd with rfl | hfd
    · exact ⟨h0, hlt⟩
    · exact h.range fd hfd
  · intro fd
    refine Finset.mem_insert.trans ((or_congr_right (h.allset fd)).trans ?_)
    exact or_left_comm.trans (or_congr_right (State.held_put hi hfree h0 fd).symm)
  · intro j k fd hj hk
    rcases (hholds j fd).mp hj with ⟨_, hj'⟩ | ⟨rfl, _, rfl, _⟩
    · rcases (hholds k fd).mp hk with ⟨_, hk'⟩ | ⟨rfl, _, rfl, _⟩
      · exact h.distinct j k fd hj' hk'
      · exact absurd hj' (hunused j)
    · rcases (hholds k _).mp hk with ⟨_, hk'⟩ | ⟨rfl, _, _, _⟩
      · exact absurd hk' (hunused k)
      · rfl
  · intro j hj
    rcases (hholds j s.listenfd).mp hj with ⟨_, hj⟩ | ⟨rfl, _, he, _⟩
    · exact h.notListen j hj
    · exact hnew (h.opened ▸ he ▸ (h.allset s.listenfd).mpr (.inl rfl))
  · intro fd hfd
    rcases Finset.mem_insert.mp hfd with rfl | hfd
    · exact le_raised (.inr (Int.le_refl fd))
    · exact le_raised (.inl (h.maxfd fd hfd))
  · intro j fd hj
    rcases (hholds j fd).mp hj with ⟨_, hj⟩ | ⟨rfl, _, _, _⟩
    · exact le_raised (.inl (h.maxi j fd hj))
    · exact le_raised (.inr (Int.le_refl _))
  · show (if (i : Int) > s.maxi then (i : Int) else s.maxi) < FD_SETSIZE
    have hmax := h.maxi_lt
    split
    · exact_mod_cast hi
    · exact hmax

/-- A client that leaves: its entry is free again, the bounds stay. -/
theorem Tables.remove (h : Tables s) {i : Nat} {sockfd : Int} (hi : s.holds i sockfd)
    {log : List Act} {nready : Int} : Tables { s with
      opened := s.opened.erase sockfd
      allset := s.allset.erase sockfd
      client := Function.update s.client i (-1)
      log := log
      nready := nready } := by
  have hholds : ∀ j fd, _ := fun j fd => @State.holds_update s i j fd (-1)
  have hkept : ∀ j fd, ({ s with client := Function.update s.client i (-1) } : State).holds j fd ↔
      fd ≠ sockfd ∧ s.holds j fd := by
    intro j fd
    rw [hholds j fd]
    constructor
    · rintro (⟨hji, hj⟩ | ⟨_, _, rfl, hneg⟩)
      · refine ⟨?_, hj⟩
        rintro rfl
        exact hji (h.distinct j i fd hj hi)
      · exact absurd hneg (by decide)
    · rintro ⟨hne, hj⟩
      refine .inl ⟨?_, hj⟩
      rintro rfl
      exact hne (hj.2.1.symm.trans hi.2.1)
  refine
    { range := fun fd hfd => h.range fd (Finset.mem_of_mem_erase hfd)
      allset := ?_
      distinct := fun j k fd hj hk =>
        h.distinct j k fd ((hkept j fd).mp hj).2 ((hkept k fd).mp hk).2
      notListen := fun j hj => h.notListen j ((hkept j s.listenfd).mp hj).2
      maxfd := fun fd hfd => h.maxfd fd (Finset.mem_of_mem_erase hfd)
      maxi := fun j fd hj => h.maxi j fd ((hkept j fd).mp hj).2
      maxi_lt := h.maxi_lt
      opened := congrArg (·.erase sockfd) h.opened }
  intro fd
  refine (Finset.mem_erase.trans (and_congr_right' (h.allset fd))).trans ?_
  constructor
  · rintro ⟨hne, rfl | ⟨j, hj⟩⟩
    · exact .inl rfl
    · exact .inr ⟨j, (hkept j fd).mpr ⟨hne, hj⟩⟩
  · rintro (rfl | ⟨j, hj⟩)
    · refine ⟨?_, .inl rfl⟩
      intro he
      exact h.notListen i (he ▸ hi)
    · obtain ⟨hne, hj⟩ := (hkept j fd).mp hj
      exact ⟨hne, .inr ⟨j, hj⟩⟩

/-! ## The scan -/

theorem Scanning.setPc {i : Nat} (h : Scanning s i) (pc : Pc) : Scanning { s with pc := pc } i :=
  ⟨h.rset, h.nodup, h.sub, h.count, h.ahead, h.behind⟩

theorem Tables.setPc (h : Tables s) (pc : Pc) : Tables { s with pc := pc } :=
  ⟨h.range, h.allset, h.distinct, h.notListen, h.maxfd, h.maxi, h.maxi_lt, h.opened⟩

/-- Behind `maxi` there is nothing to come. -/
theorem Scanning.past {i : Nat} (h : Scanning s i) (ht : Tables s) (hi : s.maxi < i) :
    Complete s where
  nodup := h.nodup
  all := by
    intro fd hfd
    by_contra hnot
    obtain ⟨j, hij, hj⟩ := h.ahead fd hfd hnot
    have hle := ht.maxi j fd hj
    omega

/-- When `nready` is counted down nothing is left. -/
theorem Scanning.counted {i : Nat} (h : Scanning s i) (hn : s.nready ≤ 0) : Complete s where
  nodup := h.nodup
  all := by
    have hsub : (served s.listenfd s.log).toFinset ⊆ s.reported := fun fd hfd =>
      h.sub fd (List.mem_toFinset.mp hfd)
    have hcard : s.reported.card ≤ (served s.listenfd s.log).toFinset.card := by
      rw [List.toFinset_card_of_nodup h.nodup]
      have := h.count
      omega
    intro fd hfd
    rw [← Finset.eq_of_subset_of_card_le hsub hcard] at hfd
    exact List.mem_toFinset.mp hfd

theorem Scanning.at {i : Nat} (h : Scanning s i) (ht : Tables s) : Inv (s.scanAt i) := by
  unfold State.scanAt
  by_cases hi : (i : Int) ≤ s.maxi
  · rw [if_pos hi]
    exact ⟨ht.setPc _, h.setPc _, hi⟩
  · rw [if_neg hi]
    have hc := h.past ht (by omega)
    exact ⟨ht.setPc _, hc.nodup, hc.all⟩

/-- `if( --nready <= 0 )`, before the turn of `i`. -/
theorem Scanning.countdown {i : Nat} (h : Scanning s i) (ht : Tables s) :
    Inv (if s.nready ≤ 0 then { s with pc := .top } else s.scanAt i) := by
  split
  · rename_i hn
    have hc := h.counted hn
    exact ⟨ht.setPc _, hc.nodup, hc.all⟩
  · exact h.at ht

/-- A slot that is free or whose descriptor is not ready is passed over. -/
theorem Scanning.skip {i : Nat} (h : Scanning s i) (hi : ¬(0 ≤ s.client i ∧ s.client i ∈ s.rset)) :
    Scanning s (i + 1) where
  rset := h.rset
  nodup := h.nodup
  sub := h.sub
  count := h.count
  ahead := by
    intro fd hfd hnot
    obtain ⟨j, hij, hj⟩ := h.ahead fd hfd hnot
    refine ⟨j, Nat.lt_of_le_of_ne hij ?_, hj⟩
    rintro rfl
    rw [h.rset, hj.2.1] at hi
    exact hi ⟨hj.2.2, hfd⟩
  behind := fun fd hfd j hj => h.behind fd hfd j (Nat.le_of_succ_le hj)

/-- The descriptor in slot `i` is read. Whatever becomes of the slot, the others stay. -/
theorem Scanning.afterRead {i : Nat} {sockfd : Int} (h : Scanning s i) (ht : Tables s)
    (hi : s.holds i sockfd) (hready : sockfd ∈ s.rset) {s' : State}
    (hlisten : s'.listenfd = s.listenfd) (hclient : ∀ j, j ≠ i → s'.client j = s.client j)
    (hrset : s'.rset = s.rset) (hreported : s'.reported = s.reported)
    (hnready : s'.nready = s.nready - 1)
    (hlog : served s.listenfd s'.log = served s.listenfd s.log ++ [sockfd]) :
    Scanning s' (i + 1) := by
  have hfresh : sockfd ∉ served s.listenfd s.log := fun hmem =>
    h.behind sockfd hmem i (Nat.le_refl i) hi
  have hholds : ∀ j fd, i + 1 ≤ j → (s'.holds j fd ↔ s.holds j fd) := by
    intro j fd hj
    rw [State.holds, State.holds, hclient j (Nat.ne_of_gt hj)]
  refine
    { rset := by rw [hrset, hreported, h.rset]
      nodup := ?_
      sub := ?_
      count := ?_
      ahead := ?_
      behind := ?_ }
  · rw [hlisten, hlog]
    exact List.nodup_append.mpr ⟨h.nodup, List.nodup_singleton sockfd, fun a ha b hb he =>
      hfresh (List.mem_singleton.mp hb ▸ he ▸ ha)⟩
  · intro fd hfd
    rw [hlisten, hlog] at hfd
    rw [hreported]
    rcases List.mem_append.mp hfd with hfd | hfd
    · exact h.sub fd hfd
    · rw [List.mem_singleton.mp hfd, ← h.rset]
      exact hready
  · rw [hlisten, hlog, hnready, hreported, List.length_append, List.length_singleton]
    have := h.count
    omega
  · intro fd hfd hnot
    rw [hreported] at hfd
    rw [hlisten, hlog] at hnot
    obtain ⟨j, hij, hj⟩ := h.ahead fd hfd fun hmem => hnot (List.mem_append_left _ hmem)
    have hne : i ≠ j := by
      rintro rfl
      have hsame : sockfd = fd := hi.2.1.symm.trans hj.2.1
      exact hnot (List.mem_append_right _ (List.mem_singleton.mpr hsame.symm))
    have hlt : i + 1 ≤ j := Nat.lt_of_le_of_ne hij hne
    exact ⟨j, hlt, (hholds j fd hlt).mpr hj⟩
  · intro fd hfd j hj hh
    rw [hlisten, hlog] at hfd
    have hh := (hholds j fd hj).mp hh
    rcases List.mem_append.mp hfd with hfd | hfd
    · exact h.behind fd hfd j (Nat.le_of_succ_le hj) hh
    · rw [List.mem_singleton.mp hfd] at hh
      have hsame := ht.distinct i j sockfd hi hh
      omega

theorem Tables.afterServe {i : Nat} (h : Tables s) (hi : s.holds i (s.client i)) (read : Read)
    (nready : Int) : Tables { serve read i s with nready := nready } := by
  cases read with
  | eof => exact h.remove hi
  | data bs =>
    exact ⟨h.range, h.allset, h.distinct, h.notListen, h.maxfd, h.maxi, h.maxi_lt, h.opened⟩
  | error =>
    exact ⟨h.range, h.allset, h.distinct, h.notListen, h.maxfd, h.maxi, h.maxi_lt, h.opened⟩

theorem Scanning.afterServe {i : Nat} (h : Scanning s i) (ht : Tables s)
    (hi : s.holds i (s.client i)) (hready : s.client i ∈ s.rset) (read : Read) :
    Scanning { serve read i s with nready := (serve read i s).nready - 1 } (i + 1) := by
  cases read with
  | eof =>
    refine h.afterRead ht hi hready rfl (fun j hj => Function.update_of_ne hj _ _) rfl rfl rfl ?_
    exact served_append s.listenfd s.log [.read (s.client i), .close (s.client i)]
  | data bs =>
    refine h.afterRead ht hi hready rfl (fun j _ => rfl) rfl rfl rfl ?_
    exact served_append s.listenfd s.log [.read (s.client i), .write (s.client i) (some bs)]
  | error =>
    refine h.afterRead ht hi hready rfl (fun j _ => rfl) rfl rfl rfl ?_
    exact served_append s.listenfd s.log [.read (s.client i), .write (s.client i) none]

theorem turn_inv {i : Nat} (ht : Tables s) (h : Scanning s i) (hi : (i : Int) ≤ s.maxi)
    (read : Read) : Inv (turn read i s) := by
  unfold turn
  by_cases hneg : s.client i < 0
  · simp only [hneg, if_true]
    exact (h.skip fun hc => absurd hc.1 (by omega)).at ht
  · by_cases hready : s.client i ∈ s.rset
    · simp only [hneg, hready, if_true, if_false]
      have hlt : i < FD_SETSIZE := by
        have := ht.maxi_lt
        omega
      have hholds : s.holds i (s.client i) := ⟨hlt, rfl, by omega⟩
      exact (h.afterServe ht hholds hready read).countdown (ht.afterServe hholds read _)
    · simp only [hneg, hready, if_false]
      exact (h.skip fun hc => hready hc.2).at ht

/-! ## The rounds -/

/-- The start of a scan, with what `accept` has served. -/
theorem scanning_start (ht : Tables s) (hrset : s.rset = s.reported)
    (hsub : ∀ fd ∈ s.reported, fd ≠ s.listenfd → ∃ j, s.holds j fd)
    (hserved : served s.listenfd s.log = if s.listenfd ∈ s.reported then [s.listenfd] else [])
    (hcount : s.nready + (served s.listenfd s.log).length = s.reported.card) :
    Scanning s 0 := by
  have hmem : ∀ fd ∈ served s.listenfd s.log, fd = s.listenfd ∧ fd ∈ s.reported := by
    intro fd hfd
    rw [hserved] at hfd
    split at hfd
    · rename_i hl
      rw [List.mem_singleton.mp hfd]
      exact ⟨rfl, hl⟩
    · cases hfd
  refine
    { rset := hrset
      nodup := ?_
      sub := fun fd hfd => (hmem fd hfd).2
      count := hcount
      ahead := ?_
      behind := ?_ }
  · rw [hserved]
    split
    · exact List.nodup_singleton _
    · exact List.nodup_nil
  · intro fd hfd hnot
    obtain ⟨j, hj⟩ := hsub fd hfd (by
      rintro rfl
      rw [hserved, if_pos hfd] at hnot
      exact hnot (List.mem_singleton_self _))
    exact ⟨j, Nat.zero_le j, hj⟩
  · intro fd hfd j _ hj
    rw [(hmem fd hfd).1] at hj
    exact ht.notListen j hj

theorem select_inv (ht : Tables s) {ready : Option (Finset Int)}
    (hready : ∀ r ∈ ready, r ⊆ s.allset) : Inv (select ready s) := by
  cases ready with
  | none =>
    have hl : s.listenfd ∈ s.allset := (ht.allset _).mpr (.inl rfl)
    simp only [select, hl, if_true]
    exact ⟨⟨ht.range, ht.allset, ht.distinct, ht.notListen, ht.maxfd, ht.maxi, ht.maxi_lt,
      ht.opened⟩, hl, Finset.Subset.refl _, rfl,
      .inr ⟨rfl, show (-1 : Int) ≤ 0 by decide⟩⟩
  | some ready =>
    have hsub := hready ready rfl
    have ht' : ∀ pc, Tables { s with
        rset := ready, nready := ready.card, reported := ready, log := [], pc := pc } := fun pc =>
      ⟨ht.range, ht.allset, ht.distinct, ht.notListen, ht.maxfd, ht.maxi, ht.maxi_lt, ht.opened⟩
    simp only [select]
    by_cases hl : s.listenfd ∈ ready
    · rw [if_pos hl]
      exact ⟨ht' _, hl, hsub, rfl, .inl ⟨rfl, rfl⟩⟩
    · rw [if_neg hl]
      refine Scanning.at (scanning_start (ht' s.pc) rfl ?_ ?_ ?_) (ht' s.pc)
      · intro fd hfd hne
        exact ((ht.allset fd).mp (hsub hfd)).resolve_left hne
      · exact (if_neg hl).symm
      · exact Int.add_zero _

theorem accept_inv (ht : Tables s) (h : Accepting s) {connfd : Int} (h0 : 0 ≤ connfd)
    (hlt : connfd < FD_SETSIZE) (hnew : connfd ∉ s.opened) : Inv (accept connfd s) := by
  obtain ⟨hi, hfree⟩ := ht.slot h0 hlt hnew
  have hadd := @Tables.add s ht connfd h0 hlt hnew _ hi hfree (s.log ++ [.accept connfd])
    (s.nready - 1)
  simp only [accept]
  rw [if_neg (Nat.ne_of_lt hi)]
  have hserved : served s.listenfd (s.log ++ [.accept connfd]) = [s.listenfd] := by
    rw [h.log]
    rfl
  rcases h.counted with ⟨hrep, hcount⟩ | ⟨hrep, hneg⟩
  · refine Scanning.countdown (scanning_start hadd hrep.symm ?_ ?_ ?_) hadd
    · intro fd hfd hne
      rw [show _ = s.reported from rfl, hrep] at hfd
      obtain ⟨j, hj⟩ := ((ht.allset fd).mp (h.rset hfd)).resolve_left hne
      refine ⟨j, State.holds_update.mpr (.inl ⟨?_, hj⟩)⟩
      rintro rfl
      have := hj.2.1
      have := hj.2.2
      omega
    · rw [hserved]
      exact (if_pos (hrep ▸ h.listen)).symm
    · rw [hserved, hrep]
      show s.nready - 1 + 1 = (s.rset.card : Int)
      omega
  · rw [if_pos (by omega)]
    refine ⟨hadd.setPc _, ?_, ?_⟩
    · rw [hserved]
      exact List.nodup_singleton _
    · intro fd hfd
      rw [show _ = s.reported from rfl, hrep] at hfd
      cases hfd

theorem step_inv (h : Inv s) {e : Event} (hok : machine.ok s e) : Inv (machine.step s e) := by
  unfold Inv at h
  cases e with
  | select ready =>
    cases ready with
    | none =>
      have hpc : s.pc = .top := hok
      rw [hpc] at h
      exact select_inv h.1 fun r hr => nomatch hr
    | some ready =>
      obtain ⟨hpc, _, hsub, _⟩ := hok
      rw [hpc] at h
      exact select_inv h.1 fun r hr => by
        cases hr
        exact hsub
  | accept connfd =>
    obtain ⟨hpc, h0, hlt, hnew⟩ := hok
    rw [hpc] at h
    exact accept_inv h.1 h.2 h0 hlt hnew
  | turn read =>
    have hpc : s.pc.isScan = true := hok
    show Inv (step s (.turn read))
    unfold step
    cases hs : s.pc with
    | scan i =>
      rw [hs] at h
      exact turn_inv h.1 h.2.1 h.2.2 read
    | top => rw [hs] at hpc; cases hpc
    | accept => rw [hs] at hpc; cases hpc
    | exited => rw [hs] at hpc; cases hpc

theorem start_inv (listenfd : Listenfd) : Inv (start listenfd) := by
  have hnone : ∀ j fd, ¬(start listenfd).holds j fd := by
    rintro j fd ⟨_, rfl, hneg⟩
    exact absurd (show (0 : Int) ≤ -1 from hneg) (by decide)
  refine
    ⟨{ range := ?_
       allset := ?_
       distinct := fun i j fd hi => absurd hi (hnone i fd)
       notListen := fun j => hnone j _
       maxfd := ?_
       maxi := fun j fd hj => absurd hj (hnone j fd)
       maxi_lt := show (-1 : Int) < FD_SETSIZE by decide
       opened := rfl }, List.nodup_nil, fun fd hfd => nomatch hfd⟩
  · intro fd hfd
    rw [Finset.mem_singleton.mp hfd]
    exact listenfd.2
  · intro fd
    refine Finset.mem_singleton.trans ⟨.inl, fun h => h.resolve_right ?_⟩
    rintro ⟨j, hj⟩
    exact hnone j fd hj
  · intro fd hfd
    rw [Finset.mem_singleton.mp hfd]
    exact Int.le_refl _

/-- The top of the loop: `allset` is the listening socket and the entries of `client[]`, which are
distinct; `maxfd` and `maxi` bound them; and all that the last `select` reported was served once. -/
structure AtTop (s : State) : Prop where
  allset : ∀ fd, fd ∈ s.allset ↔
    fd = s.listenfd ∨ ∃ j, j < FD_SETSIZE ∧ s.client j = fd ∧ 0 ≤ fd
  distinct : ∀ i j, i < FD_SETSIZE → j < FD_SETSIZE → 0 ≤ s.client i → s.client i = s.client j →
    i = j
  maxfd : ∀ fd ∈ s.allset, fd ≤ s.maxfd
  maxi : ∀ j, j < FD_SETSIZE → 0 ≤ s.client j → (j : Int) ≤ s.maxi
  once : ∀ fd ∈ s.reported, (served s.listenfd s.log).count fd = 1

theorem Tables.atTop (h : Tables s) (hc : Complete s) : AtTop s where
  allset := h.allset
  distinct := fun i j hi hj h0 he => h.distinct i j _ ⟨hi, rfl, h0⟩ ⟨hj, he.symm, h0⟩
  maxfd := h.maxfd
  maxi := fun j hj h0 => h.maxi j _ ⟨hj, rfl, h0⟩
  once := fun fd hfd => List.count_eq_one_of_mem hc.nodup (hc.all fd hfd)

theorem Inv.atTop (h : Inv s) : s.pc ≠ .exited ∧ (s.pc = .top → AtTop s) := by
  unfold Inv at h
  constructor
  · intro hpc
    rw [hpc] at h
    exact h
  · intro hpc
    rw [hpc] at h
    exact h.1.atTop h.2

/-- In every run the tables agree at the top of each round, the round before has served what
`select` reported, and there is never a client too many. -/
theorem rounds_serve (listenfd : Listenfd) (es : List Event)
    (hv : machine.Valid (start listenfd) es) :
    machine.Always (fun s => s.pc ≠ .exited ∧ (s.pc = .top → AtTop s)) (start listenfd) es :=
  (Machine.always_inv (fun _ _ h hok => step_inv h hok) (start_inv listenfd) hv).imp
    fun _ h => h.atTop

end

def listenfd3 : Listenfd := ⟨3, by decide⟩

/-- Two clients; the first is read while the second comes, and leaves while the second is read. -/
def twoClients : List Event :=
  [.select (some {3}), .accept 4, .select (some {3, 4}), .accept 5, .turn (.data [65]),
    .select (some {4, 5}), .turn .eof, .turn (.data [66])]

theorem rounds_serve_twoClients :
    machine.Always (fun s => s.pc ≠ .exited ∧ (s.pc = .top → AtTop s)) (start listenfd3)
      twoClients :=
  rounds_serve listenfd3 twoClients (by decide +kernel)

end SelectServ
end Unpvol1
