import Unpvol1.Chat.ServerPoll

/-!
# Chat.PfdScan

The rounds of the group chat server: `poll`, then the scan of `pfd`, one turn at a time.

* `machine` — a poll round step by step, beside the descriptors that are open and, for the round,
  who was there at its start, who has joined, and whose `revents` have been acted on.
* `Inv`     — what a turn keeps (`inv_step`): those acted on and those still ahead of the cursor are
  together those who were there or have joined.
* `pfd_exact` — so `pfd` holds the open clients, and a round acts on each of them once.
-/

namespace Unpvol1
namespace ServerPoll

open Slots

/-- What the scan reads in slot `j` before it acts on it. -/
def slot (s : Server) (j : Nat) : Nat × Events := ((s.pfd j).fd, (s.pfd j).revents)

/-- The slots behind slot `i`. -/
def ahead (s : Server) (i : Nat) : List (Nat × Events) :=
  contents (fun k => slot s (i + 1 + k)) (s.currentClientNum - i)

/-- `pfd[1..current_client_num]`. -/
def fds (s : Server) : List Nat := contents (fun k => (s.pfd (k + 1)).fd) s.currentClientNum

structure State where
  server : Server
  /-- Where the scan is, or `none` between two scans. -/
  cursor : Option Nat
  opened : List Nat
  atStart : List (Nat × Events)
  joined : List Nat
  acted : List (Nat × Events)

inductive Step where
  /-- `poll` with its result, or its failure, which leaves `revents` alone. -/
  | poll (result : Option (Nat → Events))
  | iterate (o : Outcome)

def polled (s : Server) : Option (Nat → Events) → Server
  | none => s
  | some r =>
    { s with
      pfd := fun j => if j ≤ s.currentClientNum then { s.pfd j with revents := r j } else s.pfd j }

def openedAfter (opened : List Nat) : Act → List Nat
  | .accept fd => fd :: opened
  | .close fd => opened.erase fd
  | _ => opened

/-- A connection that was accepted and kept. -/
def joinedBy : List Act → List Nat
  | [.accept fd] => [fd]
  | _ => []

def step (s : State) : Step → State
  | .poll result =>
    { server := polled s.server result
      cursor := some 0
      opened := s.opened
      atStart := ahead (polled s.server result) 0
      joined := []
      acted := [] }
  | .iterate o =>
    match s.cursor with
    | none => s
    | some i =>
      let (server, i', acts) := iterate s.server i o
      { server := server
        cursor := if i' < server.currentClientNum + 1 then some i' else none
        opened := acts.foldl openedAfter s.opened
        atStart := s.atStart
        joined := s.joined ++ joinedBy acts
        acted := if i = 0 then s.acted else s.acted ++ [slot s.server i] }

/-- `poll` reports what is asked for, and errors. -/
def Reported (asked reported : Events) : Prop :=
  (reported.pollin = true → asked.pollin = true) ∧
    (reported.pollrdhup = true → asked.pollrdhup = true) ∧
    (reported.pollout = true → asked.pollout = true)

/-- `poll` and the scan take turns; `accept` returns a descriptor that is not open. -/
def enabled (s : State) : Step → Prop
  | .poll result => s.cursor = none ∧
      ∀ r ∈ result, ∀ j ≤ s.server.currentClientNum, Reported (s.server.pfd j).events (r j)
  | .iterate o => s.cursor ≠ none ∧ ∀ fd ∈ o.accept, fd ≠ s.server.listenfd ∧ fd ∉ s.opened

instance (asked reported : Events) : Decidable (Reported asked reported) :=
  inferInstanceAs (Decidable (_ ∧ _ ∧ _))

def machine : Machine State Step where
  step := step
  ok := enabled

instance (s : State) : (st : Step) → Decidable (machine.ok s st)
  | .poll result => inferInstanceAs (Decidable (_ ∧ ∀ r ∈ result, ∀ j ≤ _, Reported _ _))
  | .iterate o => inferInstanceAs (Decidable (_ ∧ ∀ fd ∈ o.accept, _ ∧ _))

def start (listenfd maxClientNum : Nat) : State where
  server := init listenfd maxClientNum
  cursor := none
  opened := []
  atStart := []
  joined := []
  acted := []

/-- The clients the scan has still to act on. -/
def toCome (s : State) : List (Nat × Events) :=
  match s.cursor with
  | none => []
  | some i => ahead s.server (i - 1)

/-! ## Slots under a turn -/

theorem fds_eq (s : Server) : fds s = (ahead s 0).map Prod.fst := by
  simp [fds, ahead, contents, slot, Function.comp_def, Nat.add_comm]

theorem ahead_nil {s : Server} {i : Nat} (h : s.currentClientNum ≤ i) : ahead s i = [] := by
  simp [ahead, contents, Nat.sub_eq_zero_of_le h]

theorem ahead_cons {s : Server} {i : Nat} (h : i < s.currentClientNum) :
    ahead s i = slot s (i + 1) :: ahead s (i + 1) := by
  have hn : s.currentClientNum - i = s.currentClientNum - (i + 1) + 1 := by omega
  simp only [ahead, hn, contents_cons, Nat.add_zero]
  congr 1
  refine contents_congr fun k _ => ?_
  rw [show i + 1 + (k + 1) = i + 1 + 1 + k by omega]

/-- Turns that leave descriptors and `revents` in their slots. -/
theorem ahead_congr {s s' : Server} (hslot : ∀ j, slot s' j = slot s j)
    (hnum : s'.currentClientNum = s.currentClientNum) (i : Nat) : ahead s' i = ahead s i := by
  simp only [ahead, hnum, hslot]

theorem slot_removeClient (s : Server) (i : Nat) :
    slot (removeClient s i) = Function.update (slot s) i (slot s s.currentClientNum) := by
  funext j
  by_cases hj : j = i
  · subst hj
    simp [slot, removeClient]
  · simp [slot, removeClient, hj]

/-- A removal takes the client of slot `i + 1` out of the slots behind any slot up to `i`. -/
theorem ahead_removeClient {s : Server} {i k : Nat} (hk : k ≤ i) (hi : i < s.currentClientNum) :
    (ahead s k).Perm (slot s (i + 1) :: ahead (removeClient s (i + 1)) k) := by
  have hn : s.currentClientNum - k = s.currentClientNum - 1 - k + 1 := by omega
  have hrep := contents_replace (fun l => slot s (k + 1 + l))
    (show i - k ≤ s.currentClientNum - 1 - k by omega)
  have hslot : k + 1 + (i - k) = i + 1 := by omega
  have hlast : k + 1 + (s.currentClientNum - 1 - k) = s.currentClientNum := by omega
  simp only [hslot, hlast] at hrep
  have hahead : ahead (removeClient s (i + 1)) k = contents (Function.update
      (fun l => slot s (k + 1 + l)) (i - k) (slot s s.currentClientNum))
      (s.currentClientNum - 1 - k) := by
    refine contents_congr fun l _ => ?_
    rw [slot_removeClient]
    by_cases hl : l = i - k
    · subst hl
      rw [hslot]
      simp
    · have hne : k + 1 + l ≠ i + 1 := by omega
      simp [hl, hne]
  rw [hahead]
  simpa only [ahead, hn] using hrep

theorem ahead_addClient (s : Server) (connfd : Nat) :
    ahead (addClient s connfd) 0 = ahead s 0 ++ [(connfd, .zero)] := by
  simp only [ahead, addClient, Nat.sub_zero, contents_succ]
  congr 1
  · refine contents_congr fun k hk => ?_
    have hne : 0 + 1 + k ≠ s.currentClientNum + 1 := by omega
    simp [slot, hne]
  · simp [slot, Nat.add_comm]

theorem slot_receive (s : Server) (connfd : Nat) (bytes : List UInt8) (j : Nat) :
    slot (receive s connfd bytes) j = slot s j := by
  have hf := receive_forwarded s connfd bytes
  by_cases h : ∃ k < s.currentClientNum, j = k + 1 ∧ (s.pfd j).fd ≠ connfd
  · obtain ⟨k, hk, rfl, hne⟩ := h
    simp [slot, (hf.others k hk hne).1, asked]
  · have := hf.rest j fun k hk e => by
      by_contra hne
      exact h ⟨k, hk, e, hne⟩
    simp [slot, this]

theorem slot_flush (s : Server) (i j : Nat) : slot (flush s i) j = slot s j := by
  by_cases hj : j = i
  · subst hj
    simp [slot, flush]
  · simp [slot, flush, hj]

/-! ## The clients are the open descriptors -/

structure Holds (lfd cap : Nat) (s : Server) (opened : List Nat) : Prop where
  listenfd : s.listenfd = lfd
  maxClientNum : s.maxClientNum = cap
  bound : s.currentClientNum ≤ cap
  first : (s.pfd 0).fd = lfd
  asks : (s.pfd 0).events.pollrdhup = false ∧ (s.pfd 0).events.pollout = false
  quiet : (s.pfd 0).revents.pollrdhup = false ∧ (s.pfd 0).revents.pollout = false
  clients : (fds s).Perm opened
  nodup : (lfd :: opened).Nodup

section
variable {lfd cap : Nat} {s s' : Server} {opened : List Nat}

theorem holds_init (lfd cap : Nat) :
    Holds lfd cap (init lfd cap) [] := by
  constructor <;> simp [init, fds, contents, Events.zero]

theorem holds_congr (h : Holds lfd cap s opened) (hl : s'.listenfd = s.listenfd)
    (hm : s'.maxClientNum = s.maxClientNum) (hn : s'.currentClientNum = s.currentClientNum)
    (h0 : s'.pfd 0 = s.pfd 0) (hslot : ∀ j, slot s' j = slot s j) :
    Holds lfd cap s' opened := by
  have hfds : fds s' = fds s := by rw [fds_eq, fds_eq, ahead_congr hslot hn]
  exact ⟨hl.trans h.listenfd, hm.trans h.maxClientNum, hn ▸ h.bound, h0 ▸ h.first, h0 ▸ h.asks,
    h0 ▸ h.quiet, hfds ▸ h.clients, h.nodup⟩

theorem holds_polled (h : Holds lfd cap s opened) {result : Option (Nat → Events)}
    (hr : ∀ r, result = some r → ∀ j ≤ s.currentClientNum, Reported (s.pfd j).events (r j)) :
    Holds lfd cap (polled s result) opened := by
  cases result with
  | none => exact h
  | some r =>
    obtain ⟨-, hrdhup, hout⟩ := hr r rfl 0 (Nat.zero_le _)
    have hfds : fds (polled s (some r)) = fds s := by
      refine contents_congr fun k hk => ?_
      have hk' : k + 1 ≤ s.currentClientNum := hk
      simp [polled, hk']
    refine ⟨h.listenfd, h.maxClientNum, h.bound, ?_, ?_, ?_, hfds ▸ h.clients, h.nodup⟩
    · simpa [polled] using h.first
    · simpa [polled] using h.asks
    · have ha := h.asks
      constructor
      · by_contra hc
        simp [polled] at hc
        simp [ha.1] at hrdhup
        rw [hrdhup] at hc
        cases hc
      · by_contra hc
        simp [polled] at hc
        simp [ha.2] at hout
        rw [hout] at hc
        cases hc

/-- A client's slot holds an open descriptor, which is not the listening one. -/
theorem holds_client (h : Holds lfd cap s opened) {i : Nat}
    (hi : i < s.currentClientNum) :
    (s.pfd (i + 1)).fd ∈ opened ∧ (s.pfd (i + 1)).fd ≠ s.listenfd := by
  have hmem : (s.pfd (i + 1)).fd ∈ opened := h.clients.mem_iff.mp (mem_contents.mpr ⟨i, hi, rfl⟩)
  refine ⟨hmem, ?_⟩
  intro e
  rw [e, h.listenfd] at hmem
  exact (List.nodup_cons.mp h.nodup).1 hmem

theorem holds_removeClient (h : Holds lfd cap s opened) {i : Nat}
    (hi : i < s.currentClientNum) :
    Holds lfd cap (removeClient s (i + 1)) (opened.erase (s.pfd (i + 1)).fd) := by
  have h0 : (removeClient s (i + 1)).pfd 0 = s.pfd 0 := by
    simp [removeClient]
  have hperm := (ahead_removeClient (Nat.zero_le i) hi).map Prod.fst
  rw [← fds_eq, List.map_cons, ← fds_eq] at hperm
  refine ⟨h.listenfd, h.maxClientNum, ?_, h0 ▸ h.first, h0 ▸ h.asks, h0 ▸ h.quiet, ?_, ?_⟩
  · exact Nat.le_trans (Nat.sub_le _ _) h.bound
  · have := (hperm.symm.trans h.clients).erase (s.pfd (i + 1)).fd
    rwa [show (slot s (i + 1)).fst = (s.pfd (i + 1)).fd from rfl, List.erase_cons_head] at this
  · exact h.nodup.sublist (List.erase_sublist.cons_cons _)

theorem holds_addClient (h : Holds lfd cap s opened) {connfd : Nat}
    (hlt : s.currentClientNum < s.maxClientNum) (hl : connfd ≠ lfd) (ho : connfd ∉ opened) :
    Holds lfd cap (addClient s connfd) (connfd :: opened) := by
  have h0 : (addClient s connfd).pfd 0 = s.pfd 0 := by simp [addClient]
  refine ⟨h.listenfd, h.maxClientNum, ?_, h0 ▸ h.first, h0 ▸ h.asks, h0 ▸ h.quiet, ?_, ?_⟩
  · exact h.maxClientNum ▸ hlt
  · rw [fds_eq, ahead_addClient, List.map_append, ← fds_eq]
    exact (List.perm_append_singleton _ _).trans (h.clients.cons _)
  · obtain ⟨hnot, hnd⟩ := List.nodup_cons.mp h.nodup
    simp [hl.symm, hnot, ho, hnd]

/-- A turn of the scan, for the slots: slot 0 may add a client behind all others; the turn of a
client takes it out of those ahead, whether the scan moves on or the last client moves up. -/
theorem holds_iterate (h : Holds lfd cap s opened) {i : Nat} (hi : i ≤ s.currentClientNum)
    {o : Outcome} (ho : ∀ fd, o.accept = some fd → fd ≠ s.listenfd ∧ fd ∉ opened) {i' : Nat}
    {acts : List Act} (e : iterate s i o = (s', i', acts)) :
    Holds lfd cap s' (acts.foldl openedAfter opened) ∧
      (i = 0 ∧ i' = 1 ∧ ahead s' 0 = ahead s 0 ++ (joinedBy acts).map (fun fd => (fd, .zero)) ∧
          (joinedBy acts).Nodup ∧ (∀ fd ∈ joinedBy acts, fd ∉ opened) ∨
        0 < i ∧ 0 < i' ∧ joinedBy acts = [] ∧
          (ahead s (i - 1)).Perm (slot s i :: ahead s' (i' - 1))) := by
  cases i with
  | zero =>
    have ht := iterate_listen (h.first.trans h.listenfd.symm) h.quiet.1 h.quiet.2 o
    rw [e] at ht
    cases ht with
    | idle => exact ⟨h, .inl ⟨rfl, rfl, by simp [joinedBy]⟩⟩
    | refused connfd ha =>
      refine ⟨?_, .inl ⟨rfl, rfl, by simp [joinedBy]⟩⟩
      simpa [openedAfter] using h
    | joined connfd ha hlt =>
      obtain ⟨hl, hnot⟩ := ho connfd ha
      refine ⟨holds_addClient h hlt (h.listenfd ▸ hl) hnot, .inl ⟨rfl, rfl, ?_, ?_, ?_⟩⟩
      · exact ahead_addClient s connfd
      · simp [joinedBy]
      · simpa [joinedBy] using hnot
  | succ i =>
    obtain ⟨hmem, hfd⟩ := holds_client h hi
    have ht := iterate_client hfd o
    rw [e] at ht
    -- all turns but a removal leave the slots as they are, and move on
    have hstay : ∀ t : Server, (∀ j, slot t j = slot s j) →
        t.currentClientNum = s.currentClientNum →
        (ahead s i).Perm (slot s (i + 1) :: ahead t (i + 1)) := by
      intro t hslot hnum
      rw [ahead_congr hslot hnum, ahead_cons hi]
    cases ht with
    | idle => exact ⟨h, .inr ⟨by simp, by simp, rfl, hstay s (fun _ => rfl) rfl⟩⟩
    | left =>
      refine ⟨holds_removeClient h hi, .inr ⟨by simp, by simp, rfl, ?_⟩⟩
      exact ahead_removeClient (Nat.le_refl i) hi
    | @received bytes =>
      have hf := receive_forwarded s (s.pfd (i + 1)).fd bytes
      have hslot := slot_receive s (s.pfd (i + 1)).fd bytes
      have h0 := hf.rest 0 fun k _ hk => by omega
      refine ⟨holds_congr h hf.listenfd hf.maxClientNum hf.currentClientNum h0 hslot, .inr ?_⟩
      exact ⟨by simp, by simp, rfl, hstay _ hslot hf.currentClientNum⟩
    | flushed =>
      have hslot := slot_flush s (i + 1)
      have h0 : (flush s (i + 1)).pfd 0 = s.pfd 0 := by simp [flush]
      refine ⟨holds_congr h rfl rfl rfl h0 hslot, .inr ?_⟩
      exact ⟨by simp, by simp, rfl, hstay _ hslot rfl⟩

end

/-! ## Rounds -/

structure Inv (lfd cap : Nat) (s : State) : Prop where
  holds : Holds lfd cap s.server s.opened
  cursor : ∀ i, s.cursor = some i → i ≤ s.server.currentClientNum
  first : s.cursor = some 0 → s.acted = [] ∧ s.joined = []
  round : (s.acted ++ toCome s).Perm (s.atStart ++ s.joined.map fun fd => (fd, .zero))
  once : (s.atStart.map Prod.fst ++ s.joined).Nodup

section
variable {lfd cap : Nat}

theorem inv_start (lfd cap : Nat) : Inv lfd cap (start lfd cap) := by
  refine ⟨holds_init lfd cap, ?_, ?_, ?_, ?_⟩ <;> simp [start, toCome]

theorem Holds.nodup_ahead {s : Server} {opened : List Nat} (h : Holds lfd cap s opened) :
    ((ahead s 0).map Prod.fst).Nodup := by
  rw [← fds_eq, h.clients.nodup_iff]
  exact (List.nodup_cons.mp h.nodup).2

/-- The clients ahead of the next turn, whether the scan is over or not. -/
theorem toCome_next (s : State) {server : Server} {i' : Nat}
    (hs : s.server = server)
    (hc : s.cursor = if i' < server.currentClientNum + 1 then some i' else none) :
    toCome s = ahead server (i' - 1) := by
  by_cases hlt : i' < server.currentClientNum + 1
  · simp [toCome, hc, hlt, hs]
  · simp only [hlt, if_false] at hc
    rw [ahead_nil (by omega)]
    simp [toCome, hc]

theorem inv_poll {s : State} (h : Inv lfd cap s) {result : Option (Nat → Events)}
    (hok : enabled s (.poll result)) : Inv lfd cap (step s (.poll result)) := by
  have hholds := holds_polled h.holds hok.2
  refine ⟨hholds, ?_, ?_, ?_, ?_⟩
  · rintro i e
    cases e
    exact Nat.zero_le _
  · simp [step]
  · simp [step, toCome]
  · simpa [step] using hholds.nodup_ahead

theorem inv_iterate {s : State} (h : Inv lfd cap s) {o : Outcome}
    (hok : enabled s (.iterate o)) : Inv lfd cap (step s (.iterate o)) := by
  obtain ⟨hne, ho⟩ := hok
  obtain ⟨i, hi⟩ := Option.ne_none_iff_exists'.mp hne
  rcases e : iterate s.server i o with ⟨server, i', acts⟩
  obtain ⟨hholds, hturn⟩ := holds_iterate h.holds (h.cursor i hi) ho e
  have hround := h.round
  have honce := h.once
  have hto : toCome s = ahead s.server (i - 1) := by simp [toCome, hi]
  have hcursor : ∀ j, (if i' < server.currentClientNum + 1 then some i' else none) = some j →
      j = i' ∧ j ≤ server.currentClientNum := by
    intro j hj
    split at hj
    · cases hj
      omega
    · cases hj
  simp only [step, hi, e]
  rcases hturn with ⟨rfl, rfl, hahead, hnd, hfresh⟩ | ⟨hi0, hi'0, hjoin, hahead⟩
  · obtain ⟨hacted, hjoined⟩ := h.first hi
    rw [hto, hacted, hjoined] at hround
    rw [hjoined] at honce
    refine ⟨hholds, fun j hj => (hcursor j hj).2, fun hj => ?_, ?_, ?_⟩
    · exact absurd (hcursor 0 hj).1 (by decide)
    · rw [toCome_next _ rfl rfl]
      simp only [hacted, hjoined, if_true, List.nil_append]
      rw [hahead]
      simpa using hround.append_right _
    · simp only [hjoined, List.nil_append]
      refine List.nodup_append.mpr ⟨by simpa using honce, hnd, ?_⟩
      rintro fd hfd _ hj rfl
      refine hfresh fd hj (h.holds.clients.mem_iff.mp ?_)
      rw [fds_eq]
      exact (hround.map Prod.fst).mem_iff.mpr (by simpa using hfd)
  · refine ⟨hholds, fun j hj => (hcursor j hj).2, fun hj => ?_, ?_, ?_⟩
    · have := (hcursor 0 hj).1
      omega
    · rw [toCome_next _ rfl rfl]
      simp only [Nat.ne_of_gt hi0, if_false, hjoin, List.append_nil, List.append_assoc]
      rw [hto] at hround
      exact (hahead.symm.append_left _).trans hround
    · simpa only [hjoin, List.append_nil] using honce

theorem inv_step (s : State) (st : Step) (h : Inv lfd cap s) (hok : machine.ok s st) :
    Inv lfd cap (machine.step s st) := by
  cases st with
  | poll result => exact inv_poll h hok
  | iterate o => exact inv_iterate h hok

/-- The turn of a client is one turn fewer to come. -/
theorem toCome_iterate {s : State} (h : Inv lfd cap s) {o : Outcome} (hok : enabled s (.iterate o))
    {i : Nat} (hi : s.cursor = some (i + 1)) :
    (toCome (step s (.iterate o))).length + 1 = (toCome s).length := by
  rcases e : iterate s.server (i + 1) o with ⟨server, i', acts⟩
  obtain ⟨-, hturn⟩ := holds_iterate h.holds (h.cursor _ hi) hok.2 e
  have hto : toCome s = ahead s.server i := by simp [toCome, hi]
  rcases hturn with ⟨hi0, -⟩ | ⟨-, -, -, hahead⟩
  · omega
  · simp only [step, hi, e]
    rw [toCome_next _ rfl rfl, hto]
    have := hahead.length_eq
    simpa using this.symm

/-- In every run in which `accept` returns descriptors that are not open, `pfd[1..]` holds after
each step the clients accepted and not yet closed, each in one slot, and no more than there is
room for. In every round, the clients acted on and those still to come are at each moment the ones
that were there at its start with what `poll` reported for them, and one that has joined with
nothing reported; each turn of a client is one turn fewer to come, so that a round acts on each of
them once. -/
theorem pfd_exact (listenfd maxClientNum : Nat) (steps : List Step)
    (hv : machine.Valid (start listenfd maxClientNum) steps) :
    machine.Always (fun s => (fds s.server).Nodup ∧ (fds s.server).Perm s.opened ∧
        s.server.currentClientNum ≤ maxClientNum ∧ (s.acted.map Prod.fst).Nodup ∧
        (s.acted ++ toCome s).Perm (s.atStart ++ s.joined.map fun fd => (fd, .zero)))
      (start listenfd maxClientNum) steps ∧
    machine.Each (fun s st => ∀ o i, st = .iterate o → s.cursor = some (i + 1) →
        (toCome (machine.step s st)).length + 1 = (toCome s).length)
      (start listenfd maxClientNum) steps := by
  have hstart := inv_start listenfd maxClientNum
  constructor
  · refine (Machine.always_inv inv_step hstart hv).imp ?_
    intro s h
    refine ⟨?_, h.holds.clients, h.holds.bound, ?_, h.round⟩
    · exact h.holds.clients.nodup_iff.mpr (List.nodup_cons.mp h.holds.nodup).2
    · have hall := (h.round.map Prod.fst).nodup_iff.mpr
        (by simpa [Function.comp_def] using h.once)
      rw [List.map_append] at hall
      exact (List.nodup_append.mp hall).1
  · refine Machine.each_inv inv_step ?_ hstart hv
    rintro s _ h hok o i rfl hi
    exact toCome_iterate h hok hi

/-- Two clients join; in the third round the first leaves, so that the second moves up to its slot
and is acted on there. -/
theorem pfd_exact_run :
    let readable : Events := { Events.zero with pollin := true }
    let gone : Events := { Events.zero with pollrdhup := true }
    let steps : List Step :=
      [.poll (some fun _ => readable), .iterate ⟨some 4, .fail .again⟩,
        .iterate ⟨none, .fail .again⟩, .poll (some fun j => if j = 0 then readable else .zero),
        .iterate ⟨some 5, .fail .again⟩, .iterate ⟨none, .fail .again⟩,
        .iterate ⟨none, .fail .again⟩, .poll (some fun j => if j = 1 then gone else readable),
        .iterate ⟨none, .fail .again⟩, .iterate ⟨none, .fail .again⟩, .iterate ⟨none, .data [97]⟩]
    machine.Always (fun s => (fds s.server).Nodup ∧ (fds s.server).Perm s.opened ∧
        s.server.currentClientNum ≤ 128 ∧ (s.acted.map Prod.fst).Nodup ∧
        (s.acted ++ toCome s).Perm (s.atStart ++ s.joined.map fun fd => (fd, .zero)))
      (start 3 128) steps ∧
    machine.Each (fun s st => ∀ o i, st = .iterate o → s.cursor = some (i + 1) →
        (toCome (machine.step s st)).length + 1 = (toCome s).length)
      (start 3 128) steps := by
  intro readable gone steps
  exact pfd_exact 3 128 steps (by decide)

end

end ServerPoll
end Unpvol1
