import Unpvol1.Springsnail.Child
import Unpvol1.Springsnail.ConnRelay

/-!
# Springsnail.MgrInv

The invariant of a child's manager, over every run of the event loop.

* `Tables m`  — who is in which map: an idle connection is filed under its own open server
  descriptor, a freed one under the descriptor it used to have, every entry of `m_used` that is not
  NULL belongs to a bound connection, and no two live connections share a descriptor.
* `Served m c` — a bound connection has both descriptors registered and relays exactly what the
  kernel saw pass over them.
* `Inv m`     — both, for every connection, with unbound connections reset and idle server
  descriptors unused.

It does not say that `m_used` has an entry for every bound connection, nor that it has no NULL:
those fail, see `Springsnail.Used`.
-/

namespace Unpvol1
namespace Springsnail
namespace Mgr

/-- `c` is bound to a client. -/
def Bound (m : Mgr) (c : Nat) : Prop := c < m.created ∧ (m.heap c).cltfd ≠ -1

/-- `c` is in `m_conns`. -/
def Idle (m : Mgr) (c : Nat) : Prop := ∃ fd : Int, m.conns[fd]? = some (some c)

/-- Descriptor `fd` belongs to `c`. -/
def Owns (m : Mgr) (c : Nat) (fd : Int) : Prop :=
  (m.Bound c ∧ (m.heap c).cltfd = fd) ∨ ((m.Bound c ∨ m.Idle c) ∧ (m.heap c).srvfd = fd)

/-- `fd` is the server descriptor of a live connection. -/
def ServerFd (m : Mgr) (fd : Int) : Prop := ∃ c, (m.Bound c ∨ m.Idle c) ∧ (m.heap c).srvfd = fd

structure Tables (m : Mgr) : Prop where
  idle : ∀ (fd : Int) v, m.conns[fd]? = some v →
    ∃ c, v = some c ∧ c < m.created ∧ (m.heap c).cltfd = -1 ∧ (m.heap c).srvfd = fd
  freed : ∀ (fd : Int) c, m.freed[fd]? = some c →
    c < m.created ∧ (m.heap c).cltfd = -1 ∧ (m.heap c).srvfd = fd ∧ ¬ m.Idle c ∧ ¬ m.ServerFd fd
  used : ∀ (fd : Int) c, m.used[fd]? = some (some c) →
    m.Bound c ∧ ((m.heap c).cltfd = fd ∨ (m.heap c).srvfd = fd)
  owned : ∀ c fd, m.Owns c fd → 0 ≤ fd ∧ m.ker.opened fd = true
  owner : ∀ c c' fd, m.Owns c fd → m.Owns c' fd → c = c'
  sides : ∀ c, m.Bound c → (m.heap c).cltfd ≠ (m.heap c).srvfd

structure Served (m : Mgr) (c : Nat) : Prop where
  cltReg : (m.ker.interest (m.heap c).cltfd).isSome = true
  srvReg : (m.ker.interest (m.heap c).srvfd).isSome = true
  relays : Relays (m.heap c)
    (m.ker.log (m.heap c).cltfd).received (m.ker.log (m.heap c).srvfd).accepted
    (m.ker.log (m.heap c).srvfd).received (m.ker.log (m.heap c).cltfd).accepted

structure Inv (m : Mgr) : Prop where
  tables : m.Tables
  clean : ∀ c, (m.heap c).cltfd = -1 → (m.heap c).reset = m.heap c
  served : ∀ c, m.Bound c → m.Served c
  idleLog : ∀ c, m.Idle c → m.ker.log (m.heap c).srvfd = .empty

theorem owns_clt {m : Mgr} {c : Nat} (h : m.Bound c) : m.Owns c (m.heap c).cltfd := .inl ⟨h, rfl⟩

theorem owns_srv {m : Mgr} {c : Nat} (h : m.Bound c) : m.Owns c (m.heap c).srvfd :=
  .inr ⟨.inl h, rfl⟩

theorem owns_idle {m : Mgr} {c : Nat} (h : m.Idle c) : m.Owns c (m.heap c).srvfd :=
  .inr ⟨.inr h, rfl⟩

namespace Tables

variable {m : Mgr}

/-- A connection in `m_conns`, by its key. -/
theorem idle_conn (h : m.Tables) {c : Nat} {fd : Int} (hc : m.conns[fd]? = some (some c)) :
    c < m.created ∧ (m.heap c).cltfd = -1 ∧ (m.heap c).srvfd = fd := by
  obtain ⟨c', he, h⟩ := h.idle fd _ hc
  cases he
  exact h

theorem not_bound_of_idle (h : m.Tables) {c : Nat} (hi : m.Idle c) : ¬ m.Bound c := by
  intro hb
  obtain ⟨fd, hfd⟩ := hi
  exact hb.2 (h.idle_conn hfd).2.1

theorem idle_ne_bound (h : m.Tables) {c d : Nat} (hd : m.Idle d) (hb : m.Bound c) : d ≠ c :=
  fun e => h.not_bound_of_idle hd (e ▸ hb)

/-- A descriptor of one connection is not a descriptor of another. -/
theorem fd_ne (h : m.Tables) {c c' : Nat} {fd fd' : Int} (hc : m.Owns c fd) (hc' : m.Owns c' fd')
    (hne : c' ≠ c) : fd' ≠ fd := by
  rintro rfl
  exact hne (h.owner c' c fd' hc' hc)

theorem fresh_ne (h : m.Tables) {c : Nat} {fd fd' : Int} (hc : m.Owns c fd)
    (hf : m.ker.Fresh fd') : fd ≠ fd' := by
  rintro rfl
  have := (h.owned c fd hc).2
  rw [hf.2] at this
  cases this

/-- A descriptor just opened is no key of `m_conns`. -/
theorem conns_fresh (h : m.Tables) {fd : Int} (hf : m.ker.Fresh fd) : m.conns[fd]? = none := by
  cases hv : m.conns[fd]? with
  | none => rfl
  | some v =>
    obtain ⟨c, rfl, -, -, hsrv⟩ := h.idle fd v hv
    exact absurd hsrv (h.fresh_ne (owns_idle ⟨fd, hv⟩) hf)

end Tables

/-! ## Steps that keep every connection in its place -/

/-- `m'` differs from `m` only in what connection `c` and its two descriptors look like. -/
structure Touches (m m' : Mgr) (c : Nat) : Prop where
  created : m'.created = m.created
  cltfd : ∀ c', (m'.heap c').cltfd = (m.heap c').cltfd
  srvfd : ∀ c', (m'.heap c').srvfd = (m.heap c').srvfd
  conns : m'.conns = m.conns
  freed : m'.freed = m.freed
  used : ∀ fd : Int, m'.used[fd]? = m.used[fd]?
  opened : m'.ker.opened = m.ker.opened
  heap : ∀ c', c' ≠ c → m'.heap c' = m.heap c'
  interest : ∀ fd, fd ≠ (m.heap c).cltfd → fd ≠ (m.heap c).srvfd →
    m'.ker.interest fd = m.ker.interest fd
  log : ∀ fd, fd ≠ (m.heap c).cltfd → fd ≠ (m.heap c).srvfd → m'.ker.log fd = m.ker.log fd

namespace Touches

variable {m m' m'' : Mgr} {c : Nat}

theorem refl (m : Mgr) (c : Nat) : Touches m m c :=
  ⟨rfl, fun _ => rfl, fun _ => rfl, rfl, rfl, fun _ => rfl, rfl, fun _ _ => rfl,
    fun _ _ _ => rfl, fun _ _ _ => rfl⟩

theorem trans (h : Touches m m' c) (h' : Touches m' m'' c) : Touches m m'' c where
  created := h'.created.trans h.created
  cltfd c' := (h'.cltfd c').trans (h.cltfd c')
  srvfd c' := (h'.srvfd c').trans (h.srvfd c')
  conns := h'.conns.trans h.conns
  freed := h'.freed.trans h.freed
  used fd := (h'.used fd).trans (h.used fd)
  opened := h'.opened.trans h.opened
  heap c' hc' := (h'.heap c' hc').trans (h.heap c' hc')
  interest fd h1 h2 :=
    (h'.interest fd (by rwa [h.cltfd]) (by rwa [h.srvfd])).trans (h.interest fd h1 h2)
  log fd h1 h2 := (h'.log fd (by rwa [h.cltfd]) (by rwa [h.srvfd])).trans (h.log fd h1 h2)

theorem bound_iff (h : Touches m m' c) (c' : Nat) : m'.Bound c' ↔ m.Bound c' := by
  simp only [Bound, h.created, h.cltfd]

theorem idle_iff (h : Touches m m' c) (c' : Nat) : m'.Idle c' ↔ m.Idle c' := by
  simp only [Idle, h.conns]

theorem owns_iff (h : Touches m m' c) (c' : Nat) (fd : Int) : m'.Owns c' fd ↔ m.Owns c' fd := by
  simp only [Owns, h.bound_iff, h.idle_iff, h.cltfd, h.srvfd]

theorem tables (h : Touches m m' c) (ht : m.Tables) : m'.Tables where
  idle fd v hv := by
    obtain ⟨d, hd, hlt, hclt, hsrv⟩ := ht.idle fd v (by rwa [← h.conns])
    exact ⟨d, hd, by rwa [h.created], by rwa [h.cltfd], by rwa [h.srvfd]⟩
  freed fd d hd := by
    obtain ⟨hlt, hclt, hsrv, hidle, hfree⟩ := ht.freed fd d (by rwa [← h.freed])
    exact ⟨by rwa [h.created], by rwa [h.cltfd], by rwa [h.srvfd], by rwa [h.idle_iff],
      by simpa only [ServerFd, h.bound_iff, h.idle_iff, h.srvfd] using hfree⟩
  used fd d hd := by
    obtain ⟨hb, hfd⟩ := ht.used fd d (by rwa [← h.used])
    exact ⟨(h.bound_iff d).mpr hb, by rwa [h.cltfd, h.srvfd]⟩
  owned d fd hd := by
    rw [h.opened]
    exact ht.owned d fd ((h.owns_iff d fd).mp hd)
  owner d d' fd hd hd' := ht.owner d d' fd ((h.owns_iff d fd).mp hd) ((h.owns_iff d' fd).mp hd')
  sides d hd := by
    rw [h.cltfd, h.srvfd]
    exact ht.sides d ((h.bound_iff d).mp hd)

/-- What another connection looks like is unchanged. -/
theorem other (h : Touches m m' c) (ht : m.Tables) (hb : m.Bound c) {d : Nat} {fd : Int}
    (hd : m.Owns d fd) (hne : d ≠ c) :
    m'.ker.interest fd = m.ker.interest fd ∧ m'.ker.log fd = m.ker.log fd :=
  ⟨h.interest fd (ht.fd_ne (owns_clt hb) hd hne) (ht.fd_ne (owns_srv hb) hd hne),
    h.log fd (ht.fd_ne (owns_clt hb) hd hne) (ht.fd_ne (owns_srv hb) hd hne)⟩

theorem served_other (h : Touches m m' c) (ht : m.Tables) (hb : m.Bound c) {d : Nat}
    (hd : m.Bound d) (hne : d ≠ c) (hs : m.Served d) : m'.Served d := by
  obtain ⟨ic, lc⟩ := h.other ht hb (owns_clt hd) hne
  obtain ⟨is, ls⟩ := h.other ht hb (owns_srv hd) hne
  constructor
  · rw [h.heap d hne, ic]; exact hs.cltReg
  · rw [h.heap d hne, is]; exact hs.srvReg
  · rw [h.heap d hne, lc, ls]; exact hs.relays

theorem inv (h : Touches m m' c) (hi : m.Inv) (hb : m.Bound c) (hs : m'.Served c) : m'.Inv where
  tables := h.tables hi.tables
  clean d hd := by
    by_cases hne : d = c
    · subst hne
      rw [h.cltfd] at hd
      exact absurd hd hb.2
    · rw [h.heap d hne] at hd ⊢
      exact hi.clean d hd
  served d hd := by
    by_cases hne : d = c
    · exact hne ▸ hs
    · have hd' := (h.bound_iff d).mp hd
      exact h.served_other hi.tables hb hd' hne (hi.served d hd')
  idleLog d hd := by
    have hd' := (h.idle_iff d).mp hd
    have hne : d ≠ c := hi.tables.idle_ne_bound hd' hb
    rw [h.heap d hne, (h.other hi.tables hb (owns_idle hd') hne).2]
    exact hi.idleLog d hd'

end Touches

/-! ### The primitives of `process` -/

section Primitives

variable {m : Mgr} {c : Nat}

theorem touches_usedAt {fd : Int} (h : m.used[fd]? = some (some c)) (d : Nat) :
    Touches m (m.usedAt fd).2 d :=
  ⟨rfl, fun _ => rfl, fun _ => rfl, rfl, rfl,
    fun e => by rw [usedAt, StdMap.insert_get_of_some _ h], rfl, fun _ _ => rfl,
    fun _ _ _ => rfl, fun _ _ _ => rfl⟩

theorem touches_modfd (fd : Int) (ev : Interest)
    (h : fd = (m.heap c).cltfd ∨ fd = (m.heap c).srvfd) : Touches m (m.modfd fd ev) c :=
  ⟨rfl, fun _ => rfl, fun _ => rfl, rfl, rfl, fun _ => rfl, by simp [modfd], fun _ _ => rfl,
    fun e h1 h2 => Kernel.ctlMod_interest_of_ne _ _ (by rcases h with rfl | rfl <;> assumption),
    fun e h1 h2 => by simp [modfd]⟩

theorem touches_setConn {conn : Conn} (hc : conn.cltfd = (m.heap c).cltfd)
    (hs : conn.srvfd = (m.heap c).srvfd) : Touches m (m.setConn c conn) c where
  created := rfl
  cltfd d := by
    by_cases hd : d = c
    · subst hd; simp [setConn, hc]
    · simp [setConn, Function.update_of_ne hd]
  srvfd d := by
    by_cases hd : d = c
    · subst hd; simp [setConn, hs]
    · simp [setConn, Function.update_of_ne hd]
  conns := rfl
  freed := rfl
  used _ := rfl
  opened := rfl
  heap d hd := by simp [setConn, Function.update_of_ne hd]
  interest _ _ _ := rfl
  log _ _ _ := rfl

/-- Calls on one descriptor leave the logs of the others alone. -/
theorem transferred_log {r : RetCode × Conn × List Call} {fd d : Int}
    (hcalls : ∀ call ∈ r.2.2, call.fd = fd) (hne : fd ≠ d) :
    (m.transferred c r).ker.log d = m.ker.log d := by
  simp [transferred, setConn, Kernel.record, received_of_fd hcalls hne, accepted_of_fd hcalls hne,
    failed_of_fd hcalls hne]

/-- A transfer of `c` whose calls are all on the descriptor `fd` of `c`. -/
theorem touches_transferred {r : RetCode × Conn × List Call} {fd : Int}
    (hc : r.2.1.cltfd = (m.heap c).cltfd) (hs : r.2.1.srvfd = (m.heap c).srvfd)
    (hfd : fd = (m.heap c).cltfd ∨ fd = (m.heap c).srvfd) (hcalls : ∀ call ∈ r.2.2, call.fd = fd) :
    Touches m (m.transferred c r) c := by
  have hset := touches_setConn hc hs
  refine ⟨hset.created, hset.cltfd, hset.srvfd, hset.conns, hset.freed, hset.used, hset.opened,
    hset.heap, hset.interest, fun d h1 h2 => ?_⟩
  have hne : fd ≠ d := by rcases hfd with rfl | rfl <;> exact Ne.symm ‹_›
  exact transferred_log hcalls hne

theorem served_modfd (fd : Int) (ev : Interest) (h : m.Served c) : (m.modfd fd ev).Served c where
  cltReg := Kernel.ctlMod_mono _ _ h.cltReg
  srvReg := Kernel.ctlMod_mono _ _ h.srvReg
  relays := by simpa [modfd] using h.relays

theorem served_markSrvClosed (h : m.Served c) : (m.markSrvClosed c).Served c where
  cltReg := by simpa [markSrvClosed, setConn] using h.cltReg
  srvReg := by simpa [markSrvClosed, setConn] using h.srvReg
  relays := by
    obtain ⟨up, down, hc, h1, h2, h3, h4⟩ := h.relays
    simp only [markSrvClosed, setConn, Function.update_self]
    exact ⟨up, down, ⟨hc.up, hc.down⟩, h1, h2, h3, h4⟩

variable (t : Transfer)

theorem touches_transfer : Touches m (m.transferred c (t.apply (m.heap c))) c := by
  obtain ⟨fd, hfd, hcalls⟩ := t.calls_fd (m.heap c)
  exact touches_transferred (t.apply_cltfd _) (t.apply_srvfd _) hfd hcalls

theorem served_transfer (hne : (m.heap c).cltfd ≠ (m.heap c).srvfd) (h : m.Served c) :
    (m.transferred c (t.apply (m.heap c))).Served c where
  cltReg := by simpa [transferred, setConn, t.apply_cltfd] using h.cltReg
  srvReg := by simpa [transferred, setConn, t.apply_srvfd] using h.srvReg
  relays := by
    simpa [transferred, setConn, Kernel.record, t.apply_cltfd, t.apply_srvfd] using
      t.relays hne h.relays

end Primitives

end Mgr
end Springsnail
end Unpvol1
