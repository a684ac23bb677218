import Unpvol1.Unp.SelectServ

/-!
# Unp.SelectFds

What the server on `select` puts into `allset` when `accept` never fails. The loop over `client[]`
guards the number of clients; the descriptors also count what the process had open before.

* `Lowest` — the descriptor that `socket` and `accept` return.
* `clients` — the entries of `client[]` in use.
* `inRange_iff` — the runs in which all of `allset` fits in an `fd_set`.
-/

namespace Unpvol1
namespace SelectServ

/-- The entries of `client[]` in use. -/
def clients (s : State) : Finset Nat := (Finset.range FD_SETSIZE).filter fun j => 0 ≤ s.client j

section
variable {s : State} {connfd : Int}

theorem Inv.tables (h : Inv s) : Tables s := by
  unfold Inv at h
  cases hpc : s.pc with
  | top => rw [hpc] at h; exact h.1
  | accept => rw [hpc] at h; exact h.1
  | scan i => rw [hpc] at h; exact h.1
  | exited => rw [hpc] at h; exact h.elim

/-- The listening socket and the clients are what is open. -/
theorem Tables.card (h : Tables s) : s.allset.card = (clients s).card + 1 := by
  have hset : s.allset = insert s.listenfd ((clients s).image s.client) := by
    ext fd
    rw [h.allset, Finset.mem_insert]
    refine or_congr_right ?_
    simp only [clients, Finset.mem_image, Finset.mem_filter, Finset.mem_range]
    constructor
    · rintro ⟨j, hj, rfl, h0⟩
      exact ⟨j, ⟨hj, h0⟩, rfl⟩
    · rintro ⟨j, ⟨hj, h0⟩, rfl⟩
      exact ⟨j, hj, rfl, h0⟩
  have hnot : s.listenfd ∉ (clients s).image s.client := by
    simp only [clients, Finset.mem_image, Finset.mem_filter, Finset.mem_range]
    rintro ⟨j, ⟨hj, h0⟩, he⟩
    exact h.notListen j ⟨hj, he, he ▸ h0⟩
  rw [hset, Finset.card_insert_of_notMem hnot, Finset.card_image_of_injOn]
  intro i hi j hj he
  simp only [clients, Finset.coe_filter, Finset.mem_range, Set.mem_ofPred_eq] at hi hj
  exact h.distinct i j _ ⟨hi.1, rfl, hi.2⟩ ⟨hj.1, he.symm, he ▸ hi.2⟩

/-- There are fewer clients than entries, so the exit is not taken. -/
theorem Tables.free (h : Tables s) : findSlot s.client FD_SETSIZE 0 ≠ FD_SETSIZE := by
  intro hend
  have hfull : ∀ j, 0 ≤ j → j < 0 + FD_SETSIZE → 0 ≤ s.client j := by
    rcases findSlot_spec s.client FD_SETSIZE 0 with ⟨hlt, _⟩ | ⟨_, hfull⟩
    · omega
    · exact hfull
  have hclients : clients s = Finset.range FD_SETSIZE := by
    refine Finset.filter_true_of_mem fun j hj => hfull j (Nat.zero_le j) ?_
    rw [Nat.zero_add]
    exact Finset.mem_range.mp hj
  have hle : s.allset.card ≤ (Finset.Ico (0 : Int) FD_SETSIZE).card :=
    Finset.card_le_card fun fd hfd => Finset.mem_Ico.mpr (h.range fd hfd)
  rw [h.card, hclients, Finset.card_range, Int.card_Ico] at hle
  omega

/-- Where the exit is not taken, the new descriptor goes into `allset`. -/
theorem accept_allset (hfree : findSlot s.client FD_SETSIZE 0 ≠ FD_SETSIZE) :
    (accept connfd s).allset = insert connfd s.allset := by
  simp only [accept, if_neg hfree]
  split <;> rfl

theorem accept_opened : (accept connfd s).opened = insert connfd s.opened := by
  simp only [accept]
  split
  · rfl
  · split <;> rfl

theorem select_opened (ready : Option (Finset Int)) :
    (select ready s).opened = s.opened := by
  cases ready <;> (simp only [select]; split <;> rfl)

theorem turn_opened (read : Read) (i : Nat) :
    (turn read i s).opened ⊆ s.opened := by
  have hserve : (serve read i s).opened ⊆ s.opened := by
    cases read with
    | eof => exact Finset.erase_subset _ _
    | data bs => exact Finset.Subset.refl _
    | error => exact Finset.Subset.refl _
  simp only [turn]
  split
  · exact Finset.Subset.refl _
  · split
    · split <;> exact hserve
    · exact Finset.Subset.refl _

end
end SelectServ

namespace SelectFds

open SelectServ (State Event FD_SETSIZE clients)

/-- The lowest descriptor that is not open. -/
def Lowest (opened : Finset Int) (fd : Int) : Prop :=
  0 ≤ fd ∧ fd ∉ opened ∧ ∀ k < fd.toNat, (k : Int) ∈ opened

instance (opened : Finset Int) (fd : Int) : Decidable (Lowest opened fd) :=
  inferInstanceAs (Decidable (0 ≤ fd ∧ fd ∉ opened ∧ ∀ k < fd.toNat, (k : Int) ∈ opened))

/-- A start of the program: the descriptors it has from the outset, and what `socket` returned. -/
structure Launch where
  inherited : Finset Int
  listenfd : Int
  lowest : Lowest inherited listenfd

/-- `select` and `read` are as before. `accept` succeeds, above `FD_SETSIZE` too. -/
def ok (L : Launch) (s : State) : Event → Prop
  | .accept connfd => s.pc = .accept ∧ Lowest (L.inherited ∪ s.opened) connfd
  | e => SelectServ.ok s e

instance (L : Launch) (s : State) : (e : Event) → Decidable (ok L s e)
  | .accept connfd =>
    inferInstanceAs (Decidable (s.pc = .accept ∧ Lowest (L.inherited ∪ s.opened) connfd))
  | .select ready => inferInstanceAs (Decidable (SelectServ.ok s (.select ready)))
  | .turn read => inferInstanceAs (Decidable (SelectServ.ok s (.turn read)))

def machine (L : Launch) : Machine State Event := ⟨SelectServ.step, ok L⟩

instance (L : Launch) (s : State) (e : Event) : Decidable ((machine L).ok s e) :=
  inferInstanceAs (Decidable (ok L s e))

/-- Before the first `select`. -/
def launch (L : Launch) : State where
  listenfd := L.listenfd
  client := fun _ => -1
  maxi := -1
  maxfd := L.listenfd
  allset := {L.listenfd}
  rset := ∅
  nready := 0
  pc := .top
  opened := {L.listenfd}
  reported := ∅
  log := []

/-- All that `FD_SET` was called with, and not `FD_CLR` since. -/
def InRange (s : State) : Prop := ∀ fd ∈ s.allset, 0 ≤ fd ∧ fd < FD_SETSIZE

/-- The descriptors below `n` among some. -/
def below (n : Nat) (fds : Finset Int) : Finset Int := fds.filter fun fd => 0 ≤ fd ∧ fd < n

/-- At an `accept`, the client finds a descriptor below `FD_SETSIZE`: what was open from the outset,
the clients and the listening socket leave one. -/
def Room (L : Launch) (s : State) : Event → Prop
  | .accept _ => (below FD_SETSIZE L.inherited).card + (clients s).card + 1 < FD_SETSIZE
  | _ => True

section
variable {L : Launch} {s : State} {connfd : Int}

/-! ## The lowest descriptor -/

/-- The lowest descriptor is below `n` just when those that are open leave one there. -/
theorem Lowest.lt_iff {opened : Finset Int} {fd : Int} (h : Lowest opened fd) (n : Nat) :
    fd < n ↔ (below n opened).card < n := by
  obtain ⟨h0, hnew, hbelow⟩ := h
  have hsub : below n opened ⊆ Finset.Ico 0 (n : Int) := fun _ hx =>
    Finset.mem_Ico.mpr (Finset.mem_filter.mp hx).2
  constructor
  · intro hlt
    have hmem : fd ∈ Finset.Ico 0 (n : Int) := Finset.mem_Ico.mpr ⟨h0, hlt⟩
    have hcard := Finset.card_lt_card (Finset.ssubset_iff_subset_ne.mpr ⟨hsub, fun he => by
      rw [← he] at hmem
      exact hnew (Finset.mem_filter.mp hmem).1⟩)
    rw [Int.card_Ico] at hcard
    omega
  · intro hcard
    by_contra hge
    have hall : below n opened = Finset.Ico 0 (n : Int) := by
      refine Finset.Subset.antisymm hsub fun x hx => ?_
      obtain ⟨hx0, hxn⟩ := Finset.mem_Ico.mp hx
      refine Finset.mem_filter.mpr ⟨?_, hx0, hxn⟩
      rw [← Int.toNat_of_nonneg hx0]
      exact hbelow x.toNat (by omega)
    rw [hall, Int.card_Ico] at hcard
    omega

theorem listenfd_lt_iff (L : Launch) :
    L.listenfd < FD_SETSIZE ↔ (below FD_SETSIZE L.inherited).card < FD_SETSIZE :=
  L.lowest.lt_iff FD_SETSIZE

/-! ## The runs -/

/-- As long as all is in range: the tables, and that nothing of the outset was returned again. -/
structure Good (L : Launch) (s : State) : Prop where
  inv : SelectServ.Inv s
  apart : Disjoint L.inherited s.opened

/-- What stands between the descriptor of the next client and 0. -/
theorem Good.below_card (h : Good L s) :
    (below FD_SETSIZE (L.inherited ∪ s.opened)).card =
      (below FD_SETSIZE L.inherited).card + (clients s).card + 1 := by
  have ht := h.inv.tables
  have hall : below FD_SETSIZE s.opened = s.allset := by
    rw [ht.opened]
    exact Finset.filter_true_of_mem ht.range
  have hapart : Disjoint (below FD_SETSIZE L.inherited) s.allset :=
    Finset.disjoint_of_subset_left (Finset.filter_subset _ _) (ht.opened ▸ h.apart)
  have hunion : below FD_SETSIZE (L.inherited ∪ s.opened) =
      below FD_SETSIZE L.inherited ∪ s.allset := by
    rw [← hall]
    exact Finset.filter_union _ _ _
  rw [hunion, Finset.card_union_of_disjoint hapart, ht.card]
  omega

/-- The new client is in range just when there is room. -/
theorem Good.accept_lt_iff (h : Good L s) (hok : ok L s (.accept connfd)) :
    connfd < FD_SETSIZE ↔ Room L s (.accept connfd) := by
  have hiff := hok.2.lt_iff FD_SETSIZE
  rw [h.below_card] at hiff
  exact hiff

/-- Below `FD_SETSIZE` the server is the one whose tables agree. -/
theorem ok_of_lt {e : Event} (hok : ok L s e) (hlt : ∀ fd, e = .accept fd → fd < FD_SETSIZE) :
    SelectServ.machine.ok s e := by
  cases e with
  | accept connfd =>
    obtain ⟨hpc, h0, hnew, _⟩ := hok
    exact ⟨hpc, h0, hlt connfd rfl, fun hmem => hnew (Finset.mem_union_right _ hmem)⟩
  | select ready => exact hok
  | turn read => exact hok

theorem Good.step {e : Event} (h : Good L s) (hok : ok L s e)
    (hlt : ∀ fd, e = .accept fd → fd < FD_SETSIZE) : Good L (SelectServ.step s e) where
  inv := SelectServ.step_inv h.inv (ok_of_lt hok hlt)
  apart := by
    cases e with
    | select ready =>
      show Disjoint L.inherited (SelectServ.select ready s).opened
      rw [SelectServ.select_opened]
      exact h.apart
    | accept connfd =>
      show Disjoint L.inherited (SelectServ.accept connfd s).opened
      rw [SelectServ.accept_opened, Finset.disjoint_insert_right]
      exact ⟨fun hmem => hok.2.2.1 (Finset.mem_union_left _ hmem), h.apart⟩
    | turn read =>
      show Disjoint L.inherited (SelectServ.step s (.turn read)).opened
      unfold SelectServ.step
      cases hpc : s.pc with
      | scan i => exact Finset.disjoint_of_subset_right (SelectServ.turn_opened read i) h.apart
      | top => exact h.apart
      | accept => exact h.apart
      | exited => exact h.apart

theorem Good.inRange (h : Good L s) : InRange s := h.inv.tables.range

/-- A step stays in range just when a client it accepts finds room. -/
theorem step_inRange_iff {e : Event} (h : Good L s) (hok : ok L s e) :
    InRange (SelectServ.step s e) ↔ Room L s e := by
  cases e with
  | select ready =>
    refine iff_of_true (Good.inRange (L := L) (h.step hok ?_)) trivial
    intro fd he
    cases he
  | turn read =>
    refine iff_of_true (Good.inRange (L := L) (h.step hok ?_)) trivial
    intro fd he
    cases he
  | accept connfd =>
    rw [← h.accept_lt_iff hok]
    constructor
    · intro hrange
      refine (hrange connfd ?_).2
      show connfd ∈ (SelectServ.accept connfd s).allset
      rw [SelectServ.accept_allset h.inv.tables.free]
      exact Finset.mem_insert_self _ _
    · intro hlt
      refine Good.inRange (L := L) (h.step hok fun fd he => ?_)
      cases he
      exact hlt

theorem launch_good (hlt : L.listenfd < FD_SETSIZE) : Good L (launch L) where
  inv := SelectServ.start_inv ⟨L.listenfd, L.lowest.1, hlt⟩
  apart := Finset.disjoint_singleton_right.mpr L.lowest.2.1

/-- For every order of arrivals and departures: all that `FD_SET` is called with is in range just
when the listening socket is, and every client that is accepted finds room. -/
theorem inRange_iff (L : Launch) (es : List Event) (hv : (machine L).Valid (launch L) es) :
    (machine L).Always InRange (launch L) es ↔
      (below FD_SETSIZE L.inherited).card < FD_SETSIZE ∧
        (machine L).Each (Room L) (launch L) es := by
  rw [← listenfd_lt_iff]
  by_cases hlt : L.listenfd < FD_SETSIZE
  · refine Iff.trans ?_ (and_iff_right hlt).symm
    have hstep : ∀ s e, Good L s → (machine L).ok s e → InRange s →
        (InRange ((machine L).step s e) ↔ Room L s e) := fun s e h hok _ => step_inRange_iff h hok
    refine Machine.always_iff_each_of hstep ?_ (launch_good hlt) (launch_good hlt).inRange hv
    intro s e h hok _ hrange
    refine h.step hok fun fd he => ?_
    subst he
    have hok : ok L s (.accept fd) := hok
    exact (h.accept_lt_iff hok).mpr ((step_inRange_iff h hok).mp hrange)
  · refine iff_of_false (fun ha => hlt ?_) fun hc => hlt hc.1
    exact ((Machine.always_iff_initial.mp ha [] List.nil_prefix) L.listenfd
      (Finset.mem_singleton_self _)).2

end

/-! ## A thousand clients -/

/-- Standard input, output and error, as a shell leaves them. -/
def stdio : Launch := ⟨{0, 1, 2}, 3, by decide⟩

/-- `n` clients that come one after the other, and send nothing. -/
def arrivals : Nat → List Event
  | 0 => []
  | n + 1 => arrivals n ++ [.select (some {3}), .accept (4 + n)]

/-- After `n` arrivals. -/
structure Arrived (n : Nat) (s : State) : Prop where
  pc : s.pc = .top
  listenfd : s.listenfd = 3
  client : ∀ j, s.client j = if j < n then (4 + j : Int) else -1
  allset : ∀ fd, fd ∈ s.allset ↔ 3 ≤ fd ∧ fd < 4 + n
  opened : ∀ fd, fd ∈ s.opened ↔ 3 ≤ fd ∧ fd < 4 + n
  maxfd : 3 ≤ s.maxfd

/-- What stands before the entry that is found is in use. -/
theorem findSlot_before (client : Nat → Int) (fuel i : Nat) :
    ∀ j, i ≤ j → j < SelectServ.findSlot client fuel i → 0 ≤ client j := by
  induction fuel generalizing i with
  | zero => exact fun j hj hlt => absurd hlt (Nat.not_lt.mpr hj)
  | succ fuel ih =>
    intro j hj hlt
    unfold SelectServ.findSlot at hlt
    by_cases hfree : client i < 0
    · rw [if_pos hfree] at hlt
      omega
    · rw [if_neg hfree] at hlt
      rcases Nat.eq_or_lt_of_le hj with rfl | hgt
      · omega
      · exact ih (i + 1) j hgt hlt

/-- The first `n` entries are in use, the next is free. -/
theorem findSlot_eq {client : Nat → Int} {n : Nat}
    (hclient : ∀ j, client j = if j < n then (4 + j : Int) else -1) (hn : n < FD_SETSIZE) :
    SelectServ.findSlot client FD_SETSIZE 0 = n := by
  have hfree : client n = -1 := by rw [hclient, if_neg (Nat.lt_irrefl n)]
  have hle : ¬n < SelectServ.findSlot client FD_SETSIZE 0 := by
    intro hlt
    have := findSlot_before client FD_SETSIZE 0 n (Nat.zero_le n) hlt
    omega
  rcases SelectServ.findSlot_spec client FD_SETSIZE 0 with ⟨_, hneg⟩ | ⟨hend, _⟩
  · rw [hclient] at hneg
    split at hneg <;> omega
  · omega

/-- The next client gets the next descriptor and the next entry. -/
theorem Arrived.next {n : Nat} {s : State} (h : Arrived n s) (hn : n < FD_SETSIZE) :
    (machine stdio).Valid s [.select (some {3}), .accept (4 + n)] ∧
      Arrived (n + 1) ((machine stdio).run s [.select (some {3}), .accept (4 + n)]) := by
  have hnext : ∀ fds : Finset Int, (∀ fd, fd ∈ fds ↔ 3 ≤ fd ∧ fd < 4 + (n : Int)) → ∀ fd,
      fd ∈ insert (4 + n : Int) fds ↔ 3 ≤ fd ∧ fd < 4 + ((n + 1 : Nat) : Int) := by
    intro fds hfds fd
    rw [Finset.mem_insert, hfds]
    omega
  have hmid : SelectServ.select (some {3}) s = { s with
      rset := {3}, nready := 1, reported := {3}, log := [], pc := .accept } := by
    simp [SelectServ.select, h.listenfd]
  have hrun : (machine stdio).run s [.select (some {3}), .accept (4 + n)] =
      SelectServ.accept (4 + n) (SelectServ.select (some {3}) s) := rfl
  have hslot := findSlot_eq h.client hn
  constructor
  · refine ⟨⟨h.pc, Finset.singleton_nonempty 3, ?_, ?_⟩, ⟨?_, ?_, ?_, ?_⟩, trivial⟩
    · rw [Finset.singleton_subset_iff, h.allset]
      omega
    · intro fd hfd
      rw [Finset.mem_singleton.mp hfd]
      exact h.maxfd
    · show (SelectServ.select (some {3}) s).pc = .accept
      rw [hmid]
    · omega
    · show _ ∉ stdio.inherited ∪ (SelectServ.select (some {3}) s).opened
      rw [hmid]
      simp only [stdio, Finset.mem_union, Finset.mem_insert, Finset.mem_singleton, h.opened]
      omega
    · intro k hk
      show (k : Int) ∈ stdio.inherited ∪ (SelectServ.select (some {3}) s).opened
      rw [hmid]
      simp only [stdio, Finset.mem_union, Finset.mem_insert, Finset.mem_singleton, h.opened]
      omega
  · rw [hrun, hmid]
    simp only [SelectServ.accept, hslot, if_neg (Nat.ne_of_lt hn)]
    refine ⟨rfl, h.listenfd, ?_, ?_, ?_, ?_⟩
    · intro j
      show Function.update s.client n (4 + n : Int) j = _
      by_cases hj : j = n
      · subst hj
        rw [Function.update_self, if_pos (Nat.lt_succ_self j)]
      · rw [Function.update_of_ne hj, h.client]
        split <;> split <;> omega
    · exact hnext s.allset h.allset
    · exact hnext s.opened h.opened
    · have := h.maxfd
      show 3 ≤ if (4 + n : Int) > s.maxfd then (4 + n : Int) else s.maxfd
      split <;> omega

theorem launch_arrived : Arrived 0 (launch stdio) := by
  have honly : ∀ fd : Int, fd ∈ ({3} : Finset Int) ↔ 3 ≤ fd ∧ fd < 4 + ((0 : Nat) : Int) := by
    intro fd
    rw [Finset.mem_singleton]
    omega
  exact
    { pc := rfl
      listenfd := rfl
      client := fun j => (if_neg (Nat.not_lt_zero j)).symm
      allset := honly
      opened := honly
      maxfd := Int.le_refl 3 }

theorem arrivals_arrived {n : Nat} (hn : n ≤ FD_SETSIZE) :
    (machine stdio).Valid (launch stdio) (arrivals n) ∧
      Arrived n ((machine stdio).run (launch stdio) (arrivals n)) := by
  induction n with
  | zero => exact ⟨trivial, launch_arrived⟩
  | succ n ih =>
    obtain ⟨hv, ha⟩ := ih (Nat.le_of_succ_le hn)
    obtain ⟨hv', ha'⟩ := ha.next hn
    refine ⟨Machine.valid_append.mpr ⟨hv, hv'⟩, ?_⟩
    rw [arrivals, Machine.run_append]
    exact ha'

/-- The descriptor of the last client is out of range, and there was an entry for it. -/
theorem arrivals_out {n : Nat} (h : 1021 ≤ n) (hn : n ≤ FD_SETSIZE) :
    ¬(machine stdio).Always InRange (launch stdio) (arrivals n) := by
  intro hall
  have hmem : (1024 : Int) ∈ ((machine stdio).run (launch stdio) (arrivals n)).allset := by
    rw [(arrivals_arrived hn).2.allset]
    omega
  exact absurd (hall.last _ hmem).2 (by decide)

-- The run of the 1021 clients is not to be unfolded.
attribute [irreducible] arrivals

/-- 1021 clients: the last of them gets the descriptor 1024 and the entry 1020. -/
theorem not_inRange :
    (machine stdio).Valid (launch stdio) (arrivals 1021) ∧
      ¬(machine stdio).Always InRange (launch stdio) (arrivals 1021) :=
  have hn : 1021 ≤ FD_SETSIZE := by decide
  ⟨(arrivals_arrived hn).1, arrivals_out (Nat.le_refl 1021) hn⟩

/-- A client that comes and leaves. -/
def oneClient : List Event :=
  [.select (some {3}), .accept 4, .select (some {4}), .turn .eof]

theorem inRange_iff_stdio :
    (machine stdio).Always InRange (launch stdio) oneClient ↔
      (below FD_SETSIZE stdio.inherited).card < FD_SETSIZE ∧
        (machine stdio).Each (Room stdio) (launch stdio) oneClient :=
  inRange_iff stdio oneClient (by decide +kernel)

end SelectFds
end Unpvol1
