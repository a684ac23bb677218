import Mathlib.Algebra.GroupWithZero.Nat
import Mathlib.Algebra.Order.BigOperators.Group.List
import Mathlib.Algebra.Order.Group.Nat
import Unpvol1.Epoll.TriggerServers

/-!
# Epoll.TriggerRest

Left alone, the epoll servers come to rest: from `epoll_wait` on, with no more input from the
clients and no call that fails, the server makes a bounded number of calls and is back in
`epoll_wait` with nothing to report.

* `quiet`  — the runs considered: the server's calls only.
* `Orderly` — the events of the batch still stand for what they were reported for.
* `effort` — what is queued and unread, and how far the batch is; it goes down at every call.
-/

namespace Unpvol1
namespace TriggerServers

/-- The call does what it is for. A `read` fails on a descriptor that is closed or reset. -/
def Smooth (s : State) : Input → Prop
  | .wait _ | .next | .accept .again | .accept (.conn _) | .add true true => True
  | .read (.data _ true) | .read .eof | .read .again => True
  | .read .error => ∀ c ∈ s.conns, s.pc = .reading c.fd → c.peer.data = [] ∧ c.peer.reset = true
  | _ => False

def quiet (k : Server) : Machine State Input := ⟨step k, fun s i => ok k s i ∧ Smooth s i⟩

/-- What the server needs to get on: room for something, sockets that do not block where it reads or
accepts until there is no more, and an answer to a reset. -/
structure Able (k : Server) : Prop where
  bufsize : 0 < k.bufsize
  maxevents : 0 < k.maxevents
  blocks : k.nonblock = false → k.acceptLoop = false ∧ k.readLoop = false ∧ k.readsOn = false
  resets : k.testsError = true ∨ k.closesOnError = true

instance (k : Server) : Decidable (Able k) :=
  decidable_of_iff (0 < k.bufsize ∧ 0 < k.maxevents ∧
      (k.nonblock = false → k.acceptLoop = false ∧ k.readLoop = false ∧ k.readsOn = false) ∧
      (k.testsError = true ∨ k.closesOnError = true))
    ⟨fun ⟨h₁, h₂, h₃, h₄⟩ => ⟨h₁, h₂, h₃, h₄⟩, fun h => ⟨h.1, h.2, h.3, h.4⟩⟩

theorem servers_able : ∀ k ∈ servers, Able k := by decide

/-- What an event was reported for is still so, and not yet dealt with. -/
def Pending (s : State) : Event → Prop
  | .listening => s.queue ≠ [] ∧ s.pc ≠ .accepting ∧ ∀ fd, s.pc ≠ .adding fd
  | .conn fd error =>
      (∃ c ∈ s.conns, c.fd = fd ∧ c.peer.Readable ∧ error = c.peer.reset) ∧ s.pc ≠ .reading fd

structure Orderly (k : Server) (s : State) : Prop where
  fds : Fds s
  live : s.pc ≠ .aborted
  few : s.batch.length ≤ k.maxevents
  distinct : s.batch.Nodup
  pending : ∀ e ∈ s.batch, Pending s e
  accepting : s.pc = .accepting → k.nonblock = false → s.queue ≠ []
  adding : ∀ fd, s.pc = .adding fd → ∃ c ∈ s.conns, c.fd = fd
  reading : ∀ c ∈ s.conns, s.pc = .reading c.fd →
    (k.testsError = true → c.peer.reset = false) ∧ (k.nonblock = false → c.peer.Readable)
  unblocked : k.nonblock = true → ∀ c ∈ s.conns, c.blocking = false ∨ s.pc = .adding c.fd

section
variable {k : Server} {s s' : State} {c : Conn} {fd : Nat}

/-- Only the descriptor that is read changes, and the others' events stay. -/
theorem Orderly.after_read (h : Orderly k s) (hpc : s.pc = .reading fd) (hfds : Fds s')
    (hqueue : s'.queue = s.queue) (hbatch : s'.batch = s.batch)
    (hpc' : s'.pc = .loop ∨ s'.pc = .reading fd)
    (hkeep : ∀ c ∈ s.conns, c.fd ≠ fd → c ∈ s'.conns)
    (hsub : ∀ c ∈ s'.conns, c.fd ≠ fd → c ∈ s.conns)
    (hread : s'.pc = .reading fd → ∀ c ∈ s'.conns, c.fd = fd →
      (k.testsError = true → c.peer.reset = false) ∧ (k.nonblock = false → c.peer.Readable))
    (hblock : k.nonblock = true → ∀ c ∈ s'.conns, c.fd = fd → c.blocking = false) :
    Orderly k s' where
  fds := hfds
  live := by rcases hpc' with heq | heq <;> simp [heq]
  few := hbatch ▸ h.few
  distinct := hbatch ▸ h.distinct
  pending := by
    intro e he
    have hp := h.pending e (hbatch ▸ he)
    cases e with
    | listening =>
      refine ⟨hqueue ▸ hp.1, ?_⟩
      rcases hpc' with heq | heq <;> simp [heq]
    | conn fd' error =>
      obtain ⟨⟨c, hc, rfl, hr, herr⟩, hne⟩ := hp
      have hfd : c.fd ≠ fd := fun heq => hne (heq ▸ hpc)
      refine ⟨⟨c, hkeep c hc hfd, rfl, hr, herr⟩, ?_⟩
      rcases hpc' with heq | heq
      · simp [heq]
      · rw [heq]
        exact fun heq' => hfd (Pc.reading.inj heq').symm
  accepting := by rcases hpc' with heq | heq <;> simp [heq]
  adding := by rcases hpc' with heq | heq <;> simp [heq]
  reading := by
    intro c hc hcr
    rcases hpc' with heq | heq
    · simp [heq] at hcr
    · rw [heq] at hcr
      have hfd : fd = c.fd := Pc.reading.inj hcr
      exact hread heq c hc hfd.symm
  unblocked := by
    intro hnb c hc
    by_cases hfd : c.fd = fd
    · exact .inl (hblock hnb c hc hfd)
    · refine .inl ((h.unblocked hnb c (hsub c hc hfd)).resolve_right ?_)
      simp [hpc]

theorem Orderly.after_close (h : Orderly k s) (hpc : s.pc = .reading fd) {pc : Pc}
    (hpc' : pc = .loop ∨ pc = .reading fd) : Orderly k { closeFd fd s with pc := pc } := by
  refine h.after_read hpc (h.fds.close fd) rfl rfl hpc' (fun c hc hne => mem_closeFd.mpr ⟨hc, hne⟩)
    (fun c hc _ => (mem_closeFd.mp hc).1) (fun _ c hc heq => ?_) fun _ c hc heq => ?_
  · exact absurd heq (mem_closeFd.mp hc).2
  · exact absurd heq (mem_closeFd.mp hc).2

theorem Orderly.after_leave (h : Orderly k s) (hpc : s.pc = .reading fd) :
    Orderly k { s with pc := .loop } := by
  refine h.after_read hpc h.fds rfl rfl (.inl rfl) (fun _ hc _ => hc) (fun _ hc _ => hc)
    (fun heq => by cases heq) fun hnb c hc _ => ?_
  exact (h.unblocked hnb c hc).resolve_right (by simp [hpc])

theorem orderly_read (hk : Able k) {r : ReadResult} (h : Orderly k s) (hpc : s.pc = .reading fd)
    (hsmooth : Smooth s (.read r)) : Orderly k (read k fd s r) := by
  cases r with
  | data count written =>
    cases written with
    | false => exact hsmooth.elim
    | true =>
      refine h.after_read hpc (fds_read h.fds (.data count true)) rfl rfl ?_ ?_ ?_ ?_ ?_
      · simp only [read, Bool.true_eq_false, and_false, if_false]
        split
        · exact .inr rfl
        · exact .inl rfl
      · exact fun c hc hne => List.mem_map.mpr ⟨c, hc, if_neg hne⟩
      · intro c hc hne
        obtain ⟨c₀, hc₀, rfl⟩ := List.mem_map.mp hc
        split at hne
        next heq => exact absurd heq hne
        next heq =>
          rw [if_neg heq]
          exact hc₀
      · intro hreading c hc hfd
        obtain ⟨c₀, hc₀, rfl⟩ := List.mem_map.mp hc
        simp only [read, Bool.true_eq_false, and_false, if_false] at hreading
        have hloop : k.readLoop = true := by
          by_contra hno
          simp [hno] at hreading
        have hnb : ¬k.nonblock = false := fun hnb => by
          have := (hk.blocks hnb).2.1
          simp [hloop] at this
        refine ⟨fun ht => ?_, fun hnb' => absurd hnb' hnb⟩
        split
        next heq => exact (h.reading c₀ hc₀ (heq ▸ hpc)).1 ht
        next heq =>
          rw [if_neg heq] at hfd
          exact absurd hfd heq
      · intro hnb c hc _
        obtain ⟨c₀, hc₀, rfl⟩ := List.mem_map.mp hc
        have hblock := (h.unblocked hnb c₀ hc₀).resolve_right (by simp [hpc])
        split
        · exact hblock
        · exact hblock
  | eof =>
    refine h.after_close hpc ?_
    split
    · exact .inr rfl
    · exact .inl rfl
  | again =>
    simp only [read]
    split
    · exact h.after_close hpc (.inl rfl)
    · exact h.after_leave hpc
  | error =>
    simp only [read]
    split
    · exact h.after_close hpc (.inl rfl)
    · exact h.after_leave hpc

/-- The rest of the batch, once its first event was taken up. -/
theorem Orderly.tail (h : Orderly k s) {e : Event} {batch : List Event}
    (hb : s.batch = e :: batch) : ∀ e' ∈ batch, Pending s e' ∧ e' ≠ e := by
  intro e' he'
  refine ⟨h.pending e' (hb ▸ List.mem_cons_of_mem _ he'), ?_⟩
  rintro rfl
  have hnodup := h.distinct
  rw [hb, List.nodup_cons] at hnodup
  exact hnodup.1 he'

/-- The events of two connections in a batch are of two descriptors. -/
theorem Orderly.tail_fd (h : Orderly k s) {error error' : Bool} {batch : List Event} {fd' : Nat}
    (hb : s.batch = .conn fd error :: batch) (he' : Event.conn fd' error' ∈ batch) :
    fd' ≠ fd := by
  rintro rfl
  obtain ⟨⟨⟨c', hc', hfd', _, herr'⟩, _⟩, hne⟩ := h.tail hb _ he'
  obtain ⟨⟨c, hc, hfd, _, herr⟩, _⟩ := h.pending _ (hb ▸ List.mem_cons_self)
  have hcc := h.fds.unique hc' hc (hfd'.trans hfd.symm)
  exact hne (by rw [herr', herr, hcc])

theorem orderly_next (h : Orderly k s) (hpc : s.pc = .loop) {e : Event} {batch : List Event}
    (hb : s.batch = e :: batch) : Orderly k (turn k { s with batch := batch } e) := by
  have hfew : batch.length ≤ k.maxevents := by
    have := h.few
    rw [hb, List.length_cons] at this
    omega
  have hdistinct : batch.Nodup := by
    have := h.distinct
    rw [hb, List.nodup_cons] at this
    exact this.2
  have hhead : Pending s e := h.pending e (hb ▸ List.mem_cons_self)
  have hblock : k.nonblock = true → ∀ c ∈ s.conns, c.blocking = false := fun hnb c hc =>
    (h.unblocked hnb c hc).resolve_right (by simp [hpc])
  cases e with
  | listening =>
    refine ⟨h.fds, by simp [turn], hfew, hdistinct, fun e' he' => ?_, fun _ _ => hhead.1,
      by simp [turn], by simp [turn], fun hnb c hc => .inl (hblock hnb c hc)⟩
    obtain ⟨hp, hne⟩ := h.tail hb e' he'
    cases e' with
    | listening => exact absurd rfl hne
    | conn fd error => exact ⟨hp.1, by simp [turn]⟩
  | conn fd error =>
    obtain ⟨⟨c, hc, rfl, hr, herr⟩, _⟩ := hhead
    simp only [turn]
    split
    next =>
      refine ⟨Fds.close (s := { s with batch := batch }) h.fds c.fd, by simp [closeFd, hpc], hfew,
        hdistinct, fun e' he' => ?_, by simp [closeFd, hpc], by simp [closeFd, hpc],
        by simp [closeFd, hpc], fun hnb c' hc' => .inl (hblock hnb c' (mem_closeFd.mp hc').1)⟩
      obtain ⟨hp, hne⟩ := h.tail hb e' he'
      cases e' with
      | listening => exact ⟨hp.1, by simp [closeFd, hpc], by simp [closeFd, hpc]⟩
      | conn fd' error' =>
        have hfd' := h.tail_fd hb he'
        obtain ⟨⟨c', hc', rfl, hr', herr'⟩, _⟩ := hp
        exact ⟨⟨c', mem_closeFd.mpr ⟨hc', hfd'⟩, rfl, hr', herr'⟩, by simp [closeFd, hpc]⟩
    next htest =>
      refine ⟨h.fds, by simp, hfew, hdistinct, fun e' he' => ?_, by simp, by simp,
        fun c' hc' hcr => ?_, fun hnb c' hc' => .inl (hblock hnb c' hc')⟩
      · obtain ⟨hp, hne⟩ := h.tail hb e' he'
        cases e' with
        | listening => exact ⟨hp.1, by simp, by simp⟩
        | conn fd' error' =>
          have hfd' := h.tail_fd hb he'
          exact ⟨hp.1, fun heq => hfd' (Pc.reading.inj heq).symm⟩
      · have hcc : c' = c := h.fds.unique hc' hc (Pc.reading.inj hcr).symm
        refine hcc ▸ ⟨fun ht => ?_, fun _ => hr⟩
        rw [← herr]
        exact Bool.eq_false_iff.mpr fun he => htest ⟨ht, he⟩

theorem orderly_wait {events : List Event} (h : Orderly k s) (hok : ok k s (.wait events)) :
    Orderly k (wait events s) := by
  have hfds := fds_step h.fds hok
  obtain ⟨hpc, _, _, hfew, hnodup, hall⟩ := hok
  have hmem : ∀ c ∈ (wait events s).conns, ∃ c₀ ∈ s.conns,
      c.fd = c₀.fd ∧ c.peer = c₀.peer ∧ c.blocking = c₀.blocking := by
    intro c hc
    obtain ⟨c₀, hc₀, rfl⟩ := List.mem_map.mp hc
    refine ⟨c₀, hc₀, report_fd events c₀, ?_⟩
    unfold Conn.report
    split <;> exact ⟨rfl, rfl⟩
  refine ⟨hfds, by simp [wait, hpc], hfew, hnodup, fun e he => ?_, by simp [wait, hpc],
    by simp [wait, hpc], by simp [wait, hpc], fun hnb c hc => ?_⟩
  · have hrep := hall e he
    cases e with
    | listening => exact ⟨hrep.2, by simp [wait, hpc], by simp [wait, hpc]⟩
    | conn fd error =>
      obtain ⟨c, hc, rfl, hr, _, herr⟩ := hrep
      refine ⟨⟨c.report events, List.mem_map_of_mem hc, report_fd events c, ?_⟩,
        by simp [wait, hpc]⟩
      unfold Conn.report
      split <;> exact ⟨hr, herr⟩
  · obtain ⟨c₀, hc₀, _, _, hblock⟩ := hmem c hc
    rw [hblock]
    exact .inl ((h.unblocked hnb c₀ hc₀).resolve_right (by simp [hpc]))

/-- While the server accepts, no event of the listening socket is left: it is this one that is dealt
with. -/
theorem Orderly.other (h : Orderly k s) (hpc : s.pc = .accepting) {e : Event} (he : e ∈ s.batch) :
    ∃ fd error, e = .conn fd error := by
  have hp := h.pending e he
  cases e with
  | listening => exact absurd hpc hp.2.1
  | conn fd error => exact ⟨fd, error, rfl⟩

theorem orderly_accept {result : Accepted} (h : Orderly k s) (hok : ok k s (.accept result))
    (hsmooth : Smooth s (.accept result)) : Orderly k (accept s result) := by
  have hfds := fds_step h.fds hok
  have hpc := pc_of_accept hok
  have hblock : k.nonblock = true → ∀ c ∈ s.conns, c.blocking = false := fun hnb c hc =>
    (h.unblocked hnb c hc).resolve_right (by simp [hpc])
  cases result with
  | again =>
    refine ⟨h.fds, by simp [accept], h.few, h.distinct, fun e he => ?_, by simp [accept],
      by simp [accept], by simp [accept], fun hnb c hc => .inl (hblock hnb c hc)⟩
    obtain ⟨fd, error, rfl⟩ := h.other hpc he
    exact ⟨(h.pending _ he).1, by simp [accept]⟩
  | error => exact hsmooth.elim
  | conn connfd =>
    obtain ⟨_, hqueue, _⟩ := hok
    simp only [step, accept] at hfds ⊢
    cases hq : s.queue with
    | nil => exact absurd hq hqueue
    | cons p queue =>
      rw [hq] at hfds
      refine ⟨hfds, by simp, h.few, h.distinct, fun e he => ?_, by simp, fun fd hfd => ?_,
        by simp, fun hnb c hc => ?_⟩
      · obtain ⟨fd, error, rfl⟩ := h.other hpc he
        obtain ⟨⟨c, hc, hrest⟩, _⟩ := h.pending _ he
        exact ⟨⟨c, List.mem_append_left _ hc, hrest⟩, by simp⟩
      · exact ⟨_, List.mem_append_right _ (List.mem_singleton_self _), Pc.adding.inj hfd⟩
      · rcases List.mem_append.mp hc with hc | hc
        · exact .inl (hblock hnb c hc)
        · rw [List.mem_singleton.mp hc]
          exact .inr rfl

theorem orderly_add (hk : Able k) {connfd : Nat} (h : Orderly k s) (hpc : s.pc = .adding connfd)
    (hfds : Fds (add k connfd true true s)) : Orderly k (add k connfd true true s) := by
  simp only [add, Bool.and_self, Bool.true_eq_false, and_false, if_false, and_true] at hfds ⊢
  have hmem : ∀ c ∈ s.conns, ∃ c' ∈ (update connfd (Conn.add k true true) s).conns,
      c'.fd = c.fd ∧ c'.peer = c.peer := by
    intro c hc
    refine ⟨_, List.mem_map_of_mem hc, ?_⟩
    split <;> exact ⟨rfl, rfl⟩
  have hpc' : ∀ fd, (if k.acceptLoop = true then Pc.accepting else .loop) ≠ .reading fd := by
    intro fd
    split <;> simp
  refine ⟨hfds, ?_, h.few, h.distinct, fun e he => ?_, fun hacc hnb => ?_, fun fd hadd => ?_,
    fun c _ hcr => absurd hcr (hpc' _), fun hnb c hc => .inl ?_⟩
  · show (if k.acceptLoop = true then Pc.accepting else .loop) ≠ .aborted
    split <;> simp
  · have hp := h.pending e he
    cases e with
    | listening => exact absurd hpc (hp.2.2 connfd)
    | conn fd error =>
      obtain ⟨⟨c, hc, rfl, hr, herr⟩, _⟩ := hp
      obtain ⟨c', hc', hfd', hpeer⟩ := hmem c hc
      exact ⟨⟨c', hc', hfd', hpeer ▸ hr, hpeer ▸ herr⟩, hpc' _⟩
  · rw [if_neg (by simp [(hk.blocks hnb).1])] at hacc
    cases hacc
  · have hne : (if k.acceptLoop = true then Pc.accepting else .loop) ≠ .adding fd := by
      split <;> simp
    exact absurd hadd hne
  · obtain ⟨c₀, hc₀, rfl⟩ := List.mem_map.mp hc
    split
    next => simp [Conn.add, hnb]
    next hne =>
      refine (h.unblocked hnb c₀ hc₀).resolve_right fun heq => ?_
      rw [hpc] at heq
      exact hne (Pc.adding.inj heq).symm

theorem orderly_step (hk : Able k) {i : Input} (h : Orderly k s) (hok : (quiet k).ok s i) :
    Orderly k (step k s i) := by
  obtain ⟨hok, hsmooth⟩ := hok
  have hfds := fds_step h.fds hok
  cases i with
  | connect => exact hsmooth.elim
  | send who bs => exact hsmooth.elim
  | shut who => exact hsmooth.elim
  | reset who => exact hsmooth.elim
  | wait events => exact orderly_wait h hok
  | next =>
    obtain ⟨hpc, hbatch⟩ := hok
    simp only [step]
    cases hb : s.batch with
    | nil => exact absurd hb hbatch
    | cons e batch => exact orderly_next h hpc hb
  | accept result => exact orderly_accept h hok hsmooth
  | add set added =>
    obtain ⟨connfd, hpc⟩ := hok
    simp only [step, hpc] at hfds ⊢
    cases set with
    | false => exact hsmooth.elim
    | true =>
      cases added with
      | false => exact hsmooth.elim
      | true => exact orderly_add hk h hpc hfds
  | read result =>
    obtain ⟨fd, hpc, _⟩ := hok
    simp only [step, hpc]
    exact orderly_read hk h hpc hsmooth

end

/-! ## How far it is -/

/-- What the clients have sent, and the connections themselves. -/
def load (s : State) : Nat :=
  (s.queue.map fun p => p.data.length + 2).sum + (s.conns.map fun c => c.peer.data.length + 1).sum

/-- More than a batch takes. -/
def span (k : Server) : Nat := 3 * k.maxevents + 1

def readableAt (s : State) (fd : Nat) : Bool :=
  s.conns.any fun c => decide (c.fd = fd) && decide c.peer.Readable

/-- How far the next call is from the `epoll_wait` after it. Where something is about to be accepted
or read the way back is not counted yet. -/
def way (k : Server) (s : State) : Pc → Nat
  | .loop => if s.batch.isEmpty then span k else 0
  | .accepting => if s.queue.isEmpty then span k + 1 else 2
  | .adding _ => span k + 2
  | .reading fd => if readableAt s fd then 2 else span k + 1
  | .aborted => 0

def effort (k : Server) (s : State) : Nat :=
  2 * span k * load s + (3 * s.batch.length + way k s s.pc)

section
variable {k : Server} {s s' : State} {c : Conn} {fd : Nat}

theorem way_le (k : Server) (s : State) (pc : Pc) : way k s pc ≤ span k + 2 := by
  cases pc with
  | loop =>
    simp only [way]
    split <;> omega
  | accepting =>
    simp only [way]
    split <;> omega
  | adding fd => simp [way]
  | reading fd =>
    simp only [way]
    split <;> omega
  | aborted => simp [way]

/-- Something was accepted, read or closed. -/
theorem effort_of_load (hload : load s' < load s) (hfew : s'.batch.length ≤ k.maxevents)
    (hway : 2 ≤ 3 * s.batch.length + way k s s.pc) : effort k s' < effort k s := by
  have hle := way_le k s' s'.pc
  have hmul : 2 * span k * (load s' + 1) ≤ 2 * span k * load s := Nat.mul_le_mul_left _ hload
  have hspan : span k = 3 * k.maxevents + 1 := rfl
  rw [Nat.mul_add, Nat.mul_one] at hmul
  simp only [effort]
  omega

/-- Nothing was: the server has only got further. -/
theorem effort_of_way (hload : load s' = load s)
    (hway : 3 * s'.batch.length + way k s' s'.pc < 3 * s.batch.length + way k s s.pc) :
    effort k s' < effort k s := by
  simp only [effort, hload]
  omega

theorem two_le_reading (s : State) (fd : Nat) : 2 ≤ way k s (.reading fd) := by
  have hspan : span k = 3 * k.maxevents + 1 := rfl
  simp only [way]
  split
  · exact Nat.le_refl 2
  · omega

/-- By induction on the list of connections. -/
theorem load_close (hc : c ∈ s.conns) : load (closeFd c.fd s) < load s := by
  refine Nat.add_lt_add_left ?_ _
  simp only [closeFd]
  generalize s.conns = l at hc
  induction l with
  | nil => cases hc
  | cons c' l ih =>
    have hle : ((l.filter fun x => decide (x.fd ≠ c.fd)).map fun c => c.peer.data.length + 1).sum ≤
        (l.map fun c => c.peer.data.length + 1).sum :=
      (List.filter_sublist.map _).sum_le_sum fun _ _ => Nat.zero_le _
    by_cases hfd : c'.fd = c.fd
    · rw [List.filter_cons_of_neg (by simp [hfd]), List.map_cons, List.sum_cons]
      omega
    · rw [List.filter_cons_of_pos (by simp [hfd])]
      simp only [List.map_cons, List.sum_cons]
      have := ih ((List.mem_cons.mp hc).resolve_left fun heq => hfd (heq ▸ rfl))
      omega

theorem load_close_le (fd : Nat) : load (closeFd fd s) ≤ load s := by
  refine Nat.add_le_add_left ?_ _
  exact (List.filter_sublist.map _).sum_le_sum fun _ _ => Nat.zero_le _

theorem load_pull {count : Nat} (hc : c ∈ s.conns) (hpos : 0 < count)
    (hcount : count ≤ c.peer.data.length) :
    load (update c.fd (Conn.pull count) s) < load s := by
  refine Nat.add_lt_add_left ?_ _
  simp only [update, List.map_map]
  refine List.sum_lt_sum _ _ (fun c' _ => ?_) ⟨c, hc, ?_⟩
  · simp only [Function.comp_apply]
    split
    · simp [Conn.pull]
    · exact Nat.le_refl _
  · simp only [Function.comp_apply, if_true, Conn.pull, List.length_drop]
    omega

/-- A registration or a report leaves what was sent as it is. -/
theorem load_map {f : Conn → Conn} (hf : ∀ c, (f c).peer = c.peer) (hqueue : s'.queue = s.queue)
    (hconns : s'.conns = s.conns.map f) : load s' = load s := by
  simp only [load, hqueue, hconns, List.map_map]
  congr 2
  exact List.map_congr_left fun c _ => by simp only [Function.comp_apply, hf]

theorem effort_read {r : ReadResult} (h : Orderly k s) (hpc : s.pc = .reading fd)
    (hok : Reads k s fd r) (hk : Able k) (hsmooth : Smooth s (.read r)) :
    effort k (read k fd s r) < effort k s := by
  have hway : 2 ≤ 3 * s.batch.length + way k s s.pc := by
    have := two_le_reading (k := k) s fd
    rw [hpc]
    omega
  have hclose : ∀ c ∈ s.conns, c.fd = fd → ∀ pc,
      effort k { closeFd fd s with pc := pc } < effort k s := by
    rintro c hc rfl pc
    exact effort_of_load (load_close hc) h.few hway
  -- There was nothing to read: the way back is counted already.
  have hback : ∀ s' : State, load s' ≤ load s → s'.batch = s.batch → s'.pc = .loop →
      readableAt s fd = false → effort k s' < effort k s := by
    intro s' hload hbatch hpc' hno
    have hspan : way k s s.pc = span k + 1 := by
      rw [hpc]
      simp [way, hno]
    have hle : way k s' s'.pc ≤ span k := by
      rw [hpc']
      simp only [way]
      split <;> omega
    have hmul : 2 * span k * load s' ≤ 2 * span k * load s := Nat.mul_le_mul_left _ hload
    simp only [effort, hbatch]
    omega
  cases r with
  | data count written =>
    obtain ⟨c, hc, rfl, hpos, _, hcount⟩ := hok
    exact effort_of_load (load_pull hc hpos hcount) h.few hway
  | eof =>
    obtain ⟨c, hc, hfd, _⟩ := hok
    exact hclose c hc hfd _
  | again =>
    obtain ⟨c, hc, hfd, hno, _⟩ := hok
    simp only [read]
    split
    · exact hclose c hc hfd _
    · refine hback _ (Nat.le_refl _) rfl rfl ?_
      simp only [readableAt, List.any_eq_false]
      rintro c' hc' htrue
      simp only [Bool.and_eq_true, decide_eq_true_eq] at htrue
      exact hno (h.fds.unique hc hc' (hfd.trans htrue.1.symm) ▸ htrue.2)
  | error =>
    by_cases hopen : ∃ c ∈ s.conns, c.fd = fd
    · obtain ⟨c, hc, hfd⟩ := hopen
      obtain ⟨_, hreset⟩ := hsmooth c hc (hfd ▸ hpc)
      have hcloses : k.closesOnError = true := by
        refine hk.resets.resolve_left fun htest => ?_
        have := (h.reading c hc (hfd ▸ hpc)).1 htest
        simp [hreset] at this
      simp only [read, if_pos hcloses]
      exact hclose c hc hfd _
    · have hno : readableAt s fd = false := by
        simp only [readableAt, List.any_eq_false]
        rintro c hc htrue
        simp only [Bool.and_eq_true, decide_eq_true_eq] at htrue
        exact hopen ⟨c, hc, htrue.1⟩
      simp only [read]
      split
      · exact hback _ (load_close_le (s := s) fd) rfl rfl hno
      · exact hback _ (Nat.le_refl _) rfl rfl hno

theorem effort_wait {events : List Event} (hok : ok k s (.wait events)) :
    effort k (wait events s) < effort k s := by
  obtain ⟨hpc, hbatch, hne, hfew, _⟩ := hok
  have hload : load (wait events s) = load s := by
    refine load_map (f := Conn.report events) (fun c => ?_) rfl rfl
    unfold Conn.report
    split <;> rfl
  refine effort_of_way hload ?_
  have hnot : events.isEmpty = false := by simpa using hne
  have hspan : span k = 3 * k.maxevents + 1 := rfl
  simp only [wait, hpc, hbatch, way, hnot, List.isEmpty_nil, List.length_nil,
    Bool.false_eq_true, if_false, if_true]
  omega

theorem effort_next (h : Orderly k s) (hpc : s.pc = .loop) {e : Event} {batch : List Event}
    (hb : s.batch = e :: batch) : effort k (turn k { s with batch := batch } e) < effort k s := by
  have hhead : Pending s e := h.pending e (hb ▸ List.mem_cons_self)
  have hlen : s.batch.length = batch.length + 1 := by rw [hb, List.length_cons]
  cases e with
  | listening =>
    have hqueue : s.queue.isEmpty = false := by simpa using hhead.1
    refine effort_of_way rfl ?_
    simp only [turn, way, hqueue, hlen, Bool.false_eq_true, if_false]
    omega
  | conn fd error =>
    obtain ⟨⟨c, hc, rfl, hr, _⟩, _⟩ := hhead
    simp only [turn]
    split
    · refine effort_of_load (s := s) (load_close (s := s) hc) ?_ ?_
      · have := h.few
        rw [hlen] at this
        exact Nat.le_of_succ_le this
      · rw [hlen]
        omega
    · have hreadable : readableAt s c.fd = true :=
        List.any_eq_true.mpr ⟨c, hc, by simp [hr]⟩
      have hsame : ∀ pc, way k { s with batch := batch, pc := pc } (.reading c.fd) = 2 :=
        fun pc => if_pos hreadable
      refine effort_of_way rfl ?_
      rw [hsame, hlen, hpc]
      simp only [way]
      omega

theorem effort_accept {result : Accepted} (h : Orderly k s) (hok : ok k s (.accept result))
    (hsmooth : Smooth s (.accept result)) : effort k (accept s result) < effort k s := by
  cases result with
  | again =>
    obtain ⟨hpc, hqueue, _⟩ := hok
    refine effort_of_way rfl ?_
    simp only [accept, hpc, way, hqueue, List.isEmpty_nil, if_true]
    split <;> omega
  | error => exact hsmooth.elim
  | conn connfd =>
    obtain ⟨hpc, hqueue, _⟩ := hok
    simp only [accept]
    cases hq : s.queue with
    | nil => exact absurd hq hqueue
    | cons p queue =>
      refine effort_of_load ?_ h.few ?_
      · simp only [load, hq, List.map_cons, List.sum_cons, List.map_append, List.map_nil,
          List.sum_append, List.sum_nil]
        omega
      · simp only [hpc, way, hq, List.isEmpty_cons, Bool.false_eq_true, if_false]
        omega

theorem effort_add {connfd : Nat} (hpc : s.pc = .adding connfd) :
    effort k (add k connfd true true s) < effort k s := by
  simp only [add, Bool.and_self, Bool.true_eq_false, and_false, if_false, and_true]
  refine effort_of_way ?_ ?_
  · refine load_map (f := fun c => if c.fd = connfd then Conn.add k true true c else c)
      (fun c => ?_) rfl rfl
    split <;> rfl
  · -- Whether the loop goes on or not, a round is left at most.
    have hleft : ∀ s' : State, way k s' (if k.acceptLoop = true then .accepting else .loop) ≤
        span k + 1 := by
      intro s'
      have hspan : span k = 3 * k.maxevents + 1 := rfl
      split
      · simp only [way]
        split <;> omega
      · simp only [way]
        split <;> omega
    rw [hpc]
    exact Nat.add_lt_add_left (Nat.lt_succ_of_le (hleft _)) _

theorem effort_step (hk : Able k) {i : Input} (h : Orderly k s) (hok : (quiet k).ok s i) :
    effort k (step k s i) < effort k s := by
  obtain ⟨hok, hsmooth⟩ := hok
  cases i with
  | connect => exact hsmooth.elim
  | send who bs => exact hsmooth.elim
  | shut who => exact hsmooth.elim
  | reset who => exact hsmooth.elim
  | wait events => exact effort_wait hok
  | next =>
    obtain ⟨hpc, hbatch⟩ := hok
    simp only [step]
    cases hb : s.batch with
    | nil => exact absurd hb hbatch
    | cons e batch => exact effort_next h hpc hb
  | accept result => exact effort_accept h hok hsmooth
  | add set added =>
    obtain ⟨connfd, hpc⟩ := hok
    cases set with
    | false => exact hsmooth.elim
    | true =>
      cases added with
      | false => exact hsmooth.elim
      | true =>
        simp only [step, hpc]
        exact effort_add hpc
  | read result =>
    obtain ⟨fd, hpc, hreads⟩ := hok
    simp only [step, hpc]
    exact effort_read h hpc hreads hk hsmooth

/-! ## Where it stops -/

theorem exists_fresh (conns : List Conn) : ∃ fd, ∀ c ∈ conns, c.fd < fd := by
  induction conns with
  | nil => exact ⟨0, fun c hc => by cases hc⟩
  | cons c conns ih =>
    obtain ⟨fd, hfd⟩ := ih
    refine ⟨max fd (c.fd + 1), fun c' hc' => ?_⟩
    rcases List.mem_cons.mp hc' with rfl | hc'
    · omega
    · have := hfd c' hc'
      omega

/-- Short of `epoll_wait` with nothing to report, some call can be made. -/
theorem rest_of_stuck (hk : Able k) (h : Orderly k s) (hstuck : (quiet k).Stuck s) :
    AtRest s := by
  have hcall : ∀ i, ok k s i → Smooth s i → False := fun i hok hs => hstuck i ⟨hok, hs⟩
  cases hpc : s.pc with
  | aborted => exact absurd hpc h.live
  | loop =>
    cases hb : s.batch with
    | cons e batch => exact (hcall .next ⟨hpc, by simp [hb]⟩ trivial).elim
    | nil =>
      refine ⟨hpc, hb, fun e he => ?_⟩
      refine hcall (.wait [e]) ⟨hpc, hb, by simp, hk.maxevents, List.nodup_singleton e, ?_⟩ trivial
      exact fun e' he' => List.mem_singleton.mp he' ▸ he
  | accepting =>
    by_cases hq : s.queue = []
    · have hnb : k.nonblock = true := by
        by_contra hno
        exact h.accepting hpc (by simpa using hno) hq
      exact (hcall (.accept .again) ⟨hpc, hq, hnb⟩ trivial).elim
    · obtain ⟨fd, hfd⟩ := exists_fresh s.conns
      exact (hcall (.accept (.conn fd)) ⟨hpc, hq, fun c hc => Nat.ne_of_lt (hfd c hc)⟩ trivial).elim
  | adding connfd => exact (hcall (.add true true) ⟨connfd, hpc⟩ trivial).elim
  | reading fd =>
    by_cases hopen : ∃ c ∈ s.conns, c.fd = fd
    · obtain ⟨c, hc, rfl⟩ := hopen
      by_cases hdata : c.peer.data = []
      · by_cases hreset : c.peer.reset = true
        · refine (hcall (.read .error) ⟨c.fd, hpc, trivial⟩ fun c' hc' hpc' => ?_).elim
          have heq : c.fd = c'.fd := by
            rw [hpc] at hpc'
            exact Pc.reading.inj hpc'
          rw [h.fds.unique hc hc' heq] at hdata hreset
          exact ⟨hdata, hreset⟩
        · have hreset := Bool.eq_false_iff.mpr hreset
          by_cases hfin : c.peer.fin = true
          · exact (hcall (.read .eof) ⟨c.fd, hpc, c, hc, rfl, hdata, hfin, hreset⟩ trivial).elim
          · have hno : ¬c.peer.Readable := by simp [Peer.Readable, hdata, hreset, hfin]
            have hnb : k.nonblock = true := by
              by_contra hnb
              exact hno ((h.reading c hc hpc).2 (by simpa using hnb))
            have hblock := (h.unblocked hnb c hc).resolve_right (by simp [hpc])
            exact (hcall (.read .again) ⟨c.fd, hpc, c, hc, rfl, hno, hblock⟩ trivial).elim
      · refine (hcall (.read (.data 1 true)) ⟨c.fd, hpc, c, hc, rfl, Nat.one_pos, hk.bufsize, ?_⟩
          trivial).elim
        exact List.length_pos_iff.mpr hdata
    · refine (hcall (.read .error) ⟨fd, hpc, trivial⟩ fun c hc hpc' => ?_).elim
      rw [hpc] at hpc'
      exact absurd ⟨c, hc, (Pc.reading.inj hpc').symm⟩ hopen

end

/-- From `epoll_wait`, wherever the run has led there, each of the five servers makes no more calls
than its load allows for, whatever order the events are reported in and however much each `read`
brings, and is back in `epoll_wait` with nothing to report and every registered connection read. -/
theorem comes_to_rest {k : Server} (hk : k ∈ servers) (is : List Input)
    (hv : (machine k).Valid (start k) is) {s : State} (hs : (machine k).run (start k) is = s)
    (hpc : s.pc = .loop) (hbatch : s.batch = [])
    (hset : k.nonblock = true → ∀ c ∈ s.conns, c.blocking = false) :
    (quiet k).Ends (2 * span k * load s + span k) (fun s => AtRest s ∧ AllRead s) s := by
  have hdiligent := servers_diligent k hk
  have hable := servers_able k hk
  have hinv : Inv k s := hs ▸ Machine.run_inv (M := machine k) (I := Inv k)
    (fun _ _ h hok => inv_step hdiligent h hok) (start_inv k) hv
  have horderly : Orderly k s :=
    ⟨hinv.fds, by simp [hpc], by simp [hbatch], by simp [hbatch], by simp [hbatch], by simp [hpc],
      by simp [hpc], by simp [hpc], fun hnb c hc => .inl (hset hnb c hc)⟩
  have hends := Machine.ends_of_measure (M := quiet k)
    (I := fun s => Inv k s ∧ Orderly k s) (Q := fun s => AtRest s ∧ AllRead s) (effort k)
    (fun s i h hok => ⟨inv_step hdiligent h.1 hok.1, orderly_step hable h.2 hok⟩)
    (fun s i h hok => effort_step hable h.2 hok)
    (fun s h hstuck => by
      have hrest := rest_of_stuck hable h.2 hstuck
      exact ⟨hrest, h.1.rest hrest⟩) ⟨hinv, horderly⟩
  have heffort : effort k s = 2 * span k * load s + span k := by
    simp [effort, way, hpc, hbatch]
  exact heffort ▸ hends

theorem comes_to_rest_oneByte :
    (quiet edgeTrigger).Ends
      (2 * span edgeTrigger * load ((machine edgeTrigger).run (start edgeTrigger)
        [.connect, .send 0 [104]]) + span edgeTrigger) (fun s => AtRest s ∧ AllRead s)
      ((machine edgeTrigger).run (start edgeTrigger) [.connect, .send 0 [104]]) :=
  comes_to_rest (by simp [servers]) [.connect, .send 0 [104]] (by decide) rfl rfl rfl
    fun _ c hc => by cases hc

end TriggerServers
end Unpvol1
