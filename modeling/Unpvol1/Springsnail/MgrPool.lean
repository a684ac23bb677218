import Unpvol1.Springsnail.MgrSteps

/-!
# Springsnail.MgrPool

The operations that move connections between the maps keep `Mgr.Inv`: `pick_conn` with what
`run_child` does around it (`bindClient_inv`, `rejectClient_inv`), `recycle_conns`
(`recycleConns_spec`) and the constructor (`create_inv`). `child_inv` adds `process` and gives the
invariant of the event loop.

Both `recycle_conns` and the constructor file a connection under a fresh descriptor; that step is
`fileIdle`. `Keeps` says of a step that the bound connections do not notice it.
`child_step_cases` sorts the steps of the event loop, and `child_step_iff` is the rule for what
depends on the calls of `process` only.
-/

namespace Unpvol1
namespace Springsnail
namespace Mgr

/-- Nothing the kernel knows of descriptors that belong to no connection matters. -/
theorem Inv.withKer {m : Mgr} (hi : m.Inv) (k : Kernel Interest)
    (hk : ∀ c fd, m.Owns c fd → k.opened fd = m.ker.opened fd ∧
      k.interest fd = m.ker.interest fd ∧ k.log fd = m.ker.log fd) :
    ({ m with ker := k } : Mgr).Inv where
  tables :=
    { hi.tables with
      owned := fun d fd hd => by
        have hopen : k.opened fd = m.ker.opened fd := (hk d fd hd).1
        show 0 ≤ fd ∧ k.opened fd = true
        rw [hopen]
        exact hi.tables.owned d fd hd }
  clean := hi.clean
  served d hd := by
    have hs := hi.served d hd
    obtain ⟨-, hic, hlc⟩ := hk d _ (owns_clt hd)
    obtain ⟨-, his, hls⟩ := hk d _ (owns_srv hd)
    constructor
    · show (k.interest (m.heap d).cltfd).isSome = true
      rw [hic]; exact hs.cltReg
    · show (k.interest (m.heap d).srvfd).isSome = true
      rw [his]; exact hs.srvReg
    · show Relays (m.heap d) (k.log (m.heap d).cltfd).received (k.log (m.heap d).srvfd).accepted
        (k.log (m.heap d).srvfd).received (k.log (m.heap d).cltfd).accepted
      rw [hlc, hls]; exact hs.relays
  idleLog d hd := by
    show k.log (m.heap d).srvfd = .empty
    rw [(hk d _ (owns_idle hd)).2.2]
    exact hi.idleLog d hd

/-- `m'` has the connections of `m` that are bound, and no others, and looks at them as `m` does. -/
structure Keeps (m m' : Mgr) : Prop where
  used : m'.used = m.used
  bound : ∀ d, m'.Bound d ↔ m.Bound d
  heap : ∀ d, m.Bound d → m'.heap d = m.heap d
  interest : ∀ d fd, m.Bound d → m.Owns d fd → m'.ker.interest fd = m.ker.interest fd
  log : ∀ d fd, m.Bound d → m.Owns d fd → m'.ker.log fd = m.ker.log fd

namespace Keeps

variable {m m' m'' : Mgr}

theorem refl (m : Mgr) : Keeps m m :=
  ⟨rfl, fun _ => Iff.rfl, fun _ _ => rfl, fun _ _ _ _ => rfl, fun _ _ _ _ => rfl⟩

/-- A bound connection keeps the descriptors it owns. -/
theorem owns (h : Keeps m m') {d : Nat} {fd : Int} (hd : m.Bound d) (ho : m.Owns d fd) :
    m'.Owns d fd := by
  have hd' := (h.bound d).mpr hd
  rcases ho with ⟨-, hclt⟩ | ⟨-, hsrv⟩
  · exact .inl ⟨hd', by rw [h.heap d hd]; exact hclt⟩
  · exact .inr ⟨.inl hd', by rw [h.heap d hd]; exact hsrv⟩

theorem trans (h : Keeps m m') (h' : Keeps m' m'') : Keeps m m'' where
  used := h'.used.trans h.used
  bound d := (h'.bound d).trans (h.bound d)
  heap d hd := (h'.heap d ((h.bound d).mpr hd)).trans (h.heap d hd)
  interest d fd hd ho :=
    (h'.interest d fd ((h.bound d).mpr hd) (h.owns hd ho)).trans (h.interest d fd hd ho)
  log d fd hd ho := (h'.log d fd ((h.bound d).mpr hd) (h.owns hd ho)).trans (h.log d fd hd ho)

end Keeps

/-! ## pick_conn -/

section Take

variable {m : Mgr} {c : Nat} {connfd srvfd : Int}

/-- The manager after `pick_conn` and `init_clt` have bound the idle connection `c`. -/
def bindClient (c : Nat) (srvfd connfd : Int) (m : Mgr) : Mgr :=
  { m with
    heap := Function.update m.heap c ((m.heap c).initClt connfd)
    conns := m.conns.erase srvfd
    used := (m.used.insertIfNew connfd (some c)).insertIfNew srvfd (some c)
    ker :=
      (((m.ker.openFd connfd).ctlAdd connfd epollin).ctlAdd connfd epollin).ctlAdd srvfd epollin }

/-- The manager after `accept` returned a descriptor that no connection could be found for. -/
def rejectClient (connfd : Int) (m : Mgr) : Mgr :=
  { m with ker := (((m.ker.openFd connfd).ctlAdd connfd epollin).ctlDel connfd).close connfd }

/-- What taking a client can do: reject it when `m_conns` is empty, or bind the connection under
the smallest key. -/
theorem takeClient_cases (ht : m.Tables) (connfd : Int) :
    ((∀ fd : Int, m.conns[fd]? = none) ∧ m.takeClient connfd = (false, m.rejectClient connfd)) ∨
    ∃ srvfd c, m.conns[srvfd]? = some (some c) ∧
      m.takeClient connfd = (true, m.bindClient c srvfd connfd) := by
  unfold takeClient pickConn addReadFd
  cases hl : m.conns.toList with
  | nil =>
    refine .inl ⟨fun fd => ?_, by simp only [hl]; rfl⟩
    cases hfd : m.conns[fd]? with
    | none => rfl
    | some v =>
      have := StdMap.mem_toList.mpr hfd
      rw [hl] at this
      cases this
  | cons e rest =>
    obtain ⟨srvfd, v⟩ := e
    have hmem : m.conns[srvfd]? = some v := StdMap.mem_toList.mp (by rw [hl]; simp)
    obtain ⟨c, rfl, -⟩ := ht.idle srvfd v hmem
    exact .inr ⟨srvfd, c, hmem, by simp only [hl]; rfl⟩

theorem bindClient_heap_self :
    (m.bindClient c srvfd connfd).heap c = (m.heap c).initClt connfd := by
  simp [bindClient]

theorem bindClient_heap_of_ne {d : Nat} (h : d ≠ c) :
    (m.bindClient c srvfd connfd).heap d = m.heap d := by
  simp [bindClient, Function.update_of_ne h]

theorem bindClient_srvfd (d : Nat) :
    ((m.bindClient c srvfd connfd).heap d).srvfd = (m.heap d).srvfd := by
  by_cases h : d = c
  · subst h; rw [bindClient_heap_self]; rfl
  · rw [bindClient_heap_of_ne h]

theorem bindClient_bound (hlt : c < m.created) (hf : 0 ≤ connfd) {d : Nat} :
    (m.bindClient c srvfd connfd).Bound d ↔ d = c ∨ m.Bound d := by
  by_cases h : d = c
  · subst h
    simp only [Bound, bindClient_heap_self, Conn.initClt, true_or, iff_true]
    exact ⟨hlt, by omega⟩
  · simp only [Bound, bindClient_heap_of_ne h, h, false_or]
    exact Iff.rfl

theorem bindClient_idle {d : Nat} (h : (m.bindClient c srvfd connfd).Idle d) :
    ∃ fd : Int, fd ≠ srvfd ∧ m.conns[fd]? = some (some d) := by
  obtain ⟨fd, hfd⟩ := h
  obtain ⟨hne, hfd⟩ := StdMap.get_of_erase_get hfd
  exact ⟨fd, hne, hfd⟩

/-- Registrations of descriptors other than the new one only grow, and logs stay. -/
theorem bindClient_ker {fd : Int} (h : fd ≠ connfd) :
    ((m.ker.interest fd).isSome = true →
      ((m.bindClient c srvfd connfd).ker.interest fd).isSome = true) ∧
      (m.bindClient c srvfd connfd).ker.log fd = m.ker.log fd := by
  refine ⟨fun hs => ?_, by simp [bindClient, Function.update_of_ne h]⟩
  refine Kernel.ctlAdd_mono _ _ (Kernel.ctlAdd_mono _ _ (Kernel.ctlAdd_mono _ _ ?_))
  simpa [Function.update_of_ne h] using hs

/-- An idle connection left in `m_conns` is another one. -/
theorem bindClient_idle_other (ht : m.Tables) (hc : m.conns[srvfd]? = some (some c)) {d : Nat}
    (hd : (m.bindClient c srvfd connfd).Idle d) : d ≠ c ∧ m.Idle d := by
  obtain ⟨fd, hne, hfd⟩ := bindClient_idle hd
  refine ⟨?_, fd, hfd⟩
  rintro rfl
  exact hne ((ht.idle_conn hfd).2.2.symm.trans (ht.idle_conn hc).2.2)

theorem bindClient_live (ht : m.Tables) (hc : m.conns[srvfd]? = some (some c))
    (hf : m.ker.Fresh connfd) {d : Nat}
    (h : (m.bindClient c srvfd connfd).Bound d ∨ (m.bindClient c srvfd connfd).Idle d) :
    m.Bound d ∨ m.Idle d := by
  rcases h with h | h
  · rcases (bindClient_bound (ht.idle_conn hc).1 hf.1).mp h with rfl | h
    · exact .inr ⟨srvfd, hc⟩
    · exact .inl h
  · exact .inr (bindClient_idle_other ht hc h).2

theorem bindClient_owns (ht : m.Tables) (hc : m.conns[srvfd]? = some (some c))
    (hf : m.ker.Fresh connfd) {d : Nat} {fd : Int}
    (h : (m.bindClient c srvfd connfd).Owns d fd) : (d = c ∧ fd = connfd) ∨ m.Owns d fd := by
  rcases h with ⟨hb, hfd⟩ | ⟨hl, hfd⟩
  · rcases (bindClient_bound (ht.idle_conn hc).1 hf.1).mp hb with rfl | hb
    · rw [bindClient_heap_self] at hfd
      exact .inl ⟨rfl, hfd.symm⟩
    · have hne : d ≠ c := (ht.idle_ne_bound ⟨srvfd, hc⟩ hb).symm
      rw [bindClient_heap_of_ne hne] at hfd
      exact .inr (.inl ⟨hb, hfd⟩)
  · rw [bindClient_srvfd] at hfd
    exact .inr (.inr ⟨bindClient_live ht hc hf hl, hfd⟩)

theorem bindClient_srvfd_ne (ht : m.Tables) (hc : m.conns[srvfd]? = some (some c))
    (hf : m.ker.Fresh connfd) : srvfd ≠ connfd := by
  obtain ⟨-, -, hsrv⟩ := ht.idle_conn hc
  exact hsrv ▸ ht.fresh_ne (owns_idle ⟨srvfd, hc⟩) hf

theorem bindClient_tables (ht : m.Tables) (hc : m.conns[srvfd]? = some (some c))
    (hf : m.ker.Fresh connfd) : (m.bindClient c srvfd connfd).Tables := by
  have hci : m.Idle c := ⟨srvfd, hc⟩
  obtain ⟨hlt, -, hsrv⟩ := ht.idle_conn hc
  have hnb : ¬ m.Bound c := ht.not_bound_of_idle hci
  have hbound : ∀ {d}, (m.bindClient c srvfd connfd).Bound d ↔ d = c ∨ m.Bound d :=
    bindClient_bound hlt hf.1
  constructor
  case idle =>
    intro fd v hv
    obtain ⟨hfdne, hv⟩ := StdMap.get_of_erase_get hv
    obtain ⟨d, rfl, hd1, hd2, hd3⟩ := ht.idle fd v hv
    have hne : d ≠ c := by
      rintro rfl
      exact hfdne (hd3.symm.trans hsrv)
    exact ⟨d, rfl, hd1, by rwa [bindClient_heap_of_ne hne], by rwa [bindClient_heap_of_ne hne]⟩
  case freed =>
    intro fd d hd
    obtain ⟨h1, h2, h3, h4, h5⟩ := ht.freed fd d hd
    have hne : d ≠ c := by rintro rfl; exact h4 hci
    refine ⟨h1, by rwa [bindClient_heap_of_ne hne], by rwa [bindClient_heap_of_ne hne],
      fun he => h4 (bindClient_idle_other ht hc he).2, ?_⟩
    rintro ⟨e, hl, hs⟩
    rw [bindClient_srvfd] at hs
    exact h5 ⟨e, bindClient_live ht hc hf hl, hs⟩
  case used =>
    intro fd d hd
    rcases StdMap.insert_get_cases hd with hd | ⟨rfl, hd, -⟩
    · rcases StdMap.insert_get_cases hd with hd | ⟨rfl, hd, -⟩
      · obtain ⟨hb, hside⟩ := ht.used fd d hd
        have hne : d ≠ c := fun e => hnb (e ▸ hb)
        exact ⟨hbound.mpr (.inr hb), by rwa [bindClient_heap_of_ne hne]⟩
      · cases hd
        exact ⟨hbound.mpr (.inl rfl), .inl (by rw [bindClient_heap_self]; rfl)⟩
    · cases hd
      exact ⟨hbound.mpr (.inl rfl), .inr (by rw [bindClient_srvfd]; exact hsrv)⟩
  case owned =>
    intro d fd hd
    rcases bindClient_owns ht hc hf hd with ⟨-, rfl⟩ | hd
    · exact ⟨hf.1, by simp [bindClient]⟩
    · have hne := ht.fresh_ne hd hf
      simpa [bindClient, Function.update_of_ne hne] using ht.owned d fd hd
  case owner =>
    intro d d' fd hd hd'
    rcases bindClient_owns ht hc hf hd with ⟨hdc, hfd⟩ | hold
    · rcases bindClient_owns ht hc hf hd' with ⟨hdc', -⟩ | hold'
      · exact hdc.trans hdc'.symm
      · exact absurd hfd (ht.fresh_ne hold' hf)
    · rcases bindClient_owns ht hc hf hd' with ⟨-, hfd⟩ | hold'
      · exact absurd hfd (ht.fresh_ne hold hf)
      · exact ht.owner d d' fd hold hold'
  case sides =>
    intro d hd
    rw [bindClient_srvfd]
    rcases hbound.mp hd with rfl | hbd
    · rw [bindClient_heap_self, hsrv]
      exact (bindClient_srvfd_ne ht hc hf).symm
    · have hne : d ≠ c := fun e => hnb (e ▸ hbd)
      rw [bindClient_heap_of_ne hne]
      exact ht.sides d hbd

theorem bindClient_served (hi : m.Inv) (hc : m.conns[srvfd]? = some (some c))
    (hf : m.ker.Fresh connfd) : (m.bindClient c srvfd connfd).Served c := by
  have ht := hi.tables
  have hci : m.Idle c := ⟨srvfd, hc⟩
  obtain ⟨-, hclt, hsrv⟩ := ht.idle_conn hc
  have hsrvne := bindClient_srvfd_ne ht hc hf
  have hreset := hi.clean c hclt
  have hlog := hi.idleLog c hci
  have hrel : Relays ((m.heap c).initClt connfd) [] [] [] [] := by
    rw [← hreset]
    obtain ⟨up, down, hcar, h⟩ := (relays_reset (m.heap c)).carries
    exact ⟨up, down, ⟨hcar.up, hcar.down⟩, h⟩
  constructor
  · rw [bindClient_heap_self]
    exact Kernel.ctlAdd_mono _ _ (Kernel.ctlAdd_isSome _ (by simp))
  · rw [bindClient_srvfd, hsrv]
    refine Kernel.ctlAdd_isSome _ ?_
    have := (ht.owned c _ (owns_idle hci)).2
    rw [hsrv] at this
    simpa [Function.update_of_ne hsrvne] using this
  · rw [hsrv] at hlog
    rw [bindClient_srvfd, hsrv, (bindClient_ker hsrvne).2, hlog, bindClient_heap_self]
    simpa [bindClient, Conn.initClt, FdLog.empty] using hrel

theorem bindClient_inv (hi : m.Inv) (hc : m.conns[srvfd]? = some (some c))
    (hf : m.ker.Fresh connfd) : (m.bindClient c srvfd connfd).Inv := by
  have ht := hi.tables
  constructor
  case tables => exact bindClient_tables ht hc hf
  case clean =>
    intro d hd
    by_cases hne : d = c
    · subst hne
      rw [bindClient_heap_self] at hd
      have : connfd = -1 := hd
      exact absurd hf.1 (by omega)
    · rw [bindClient_heap_of_ne hne] at hd ⊢
      exact hi.clean d hd
  case served =>
    intro d hd
    by_cases hne : d = c
    · subst hne
      exact bindClient_served hi hc hf
    · have hbd := ((bindClient_bound (ht.idle_conn hc).1 hf.1).mp hd).resolve_left hne
      have hs := hi.served d hbd
      have hcf := ht.fresh_ne (owns_clt hbd) hf
      have hsf := ht.fresh_ne (owns_srv hbd) hf
      constructor
      · rw [bindClient_heap_of_ne hne]
        exact (bindClient_ker hcf).1 hs.cltReg
      · rw [bindClient_heap_of_ne hne]
        exact (bindClient_ker hsf).1 hs.srvReg
      · rw [bindClient_heap_of_ne hne, (bindClient_ker hcf).2, (bindClient_ker hsf).2]
        exact hs.relays
  case idleLog =>
    intro d hd
    obtain ⟨hne, hdi⟩ := bindClient_idle_other ht hc hd
    rw [bindClient_heap_of_ne hne, (bindClient_ker (ht.fresh_ne (owns_idle hdi) hf)).2]
    exact hi.idleLog d hdi

/-- Rejecting a client only changes what the kernel knows of its descriptor. -/
theorem rejectClient_ker {fd : Int} (h : fd ≠ connfd) :
    (m.rejectClient connfd).ker.opened fd = m.ker.opened fd ∧
      (m.rejectClient connfd).ker.interest fd = m.ker.interest fd ∧
      (m.rejectClient connfd).ker.log fd = m.ker.log fd := by
  simp [rejectClient, Function.update_of_ne h, Kernel.ctlAdd_interest_of_ne _ _ h]

theorem rejectClient_keeps (ht : m.Tables) (hf : m.ker.Fresh connfd) :
    Keeps m (m.rejectClient connfd) where
  used := rfl
  bound _ := Iff.rfl
  heap _ _ := rfl
  interest _ _ _ ho := (rejectClient_ker (ht.fresh_ne ho hf)).2.1
  log _ _ _ ho := (rejectClient_ker (ht.fresh_ne ho hf)).2.2

theorem rejectClient_inv (hi : m.Inv) (hf : m.ker.Fresh connfd) : (m.rejectClient connfd).Inv :=
  hi.withKer _ fun _ _ h => rejectClient_ker (hi.tables.fresh_ne h hf)

end Take

/-! ## Filing a connection under a fresh descriptor -/

section File

variable {m : Mgr} {c n : Nat} {conn : Conn} {fd : Int}

/-- Connection `c` becomes `conn` and goes to `m_conns` under the descriptor `fd` just opened; `n`
connections have been made by then. -/
def fileIdle (c n : Nat) (conn : Conn) (fd : Int) (m : Mgr) : Mgr :=
  { m with
    heap := Function.update m.heap c conn
    created := n
    conns := m.conns.insertIfNew fd (some c)
    ker := m.ker.openFd fd }

/-- A connection that may be filed: it is in no map, and `n` counts it. -/
structure Filable (m : Mgr) (c n : Nat) (conn : Conn) (fd : Int) : Prop where
  created : ∀ d, d < n ↔ d = c ∨ d < m.created
  not_bound : ¬ m.Bound c
  not_idle : ¬ m.Idle c
  cltfd : conn.cltfd = -1
  srvfd : conn.srvfd = fd
  clean : conn.reset = conn
  fresh : m.ker.Fresh fd

theorem fileIdle_heap_of_ne {d : Nat} (h : d ≠ c) :
    (m.fileIdle c n conn fd).heap d = m.heap d := by
  simp [fileIdle, Function.update_of_ne h]

theorem fileIdle_heap_self : (m.fileIdle c n conn fd).heap c = conn := by
  simp [fileIdle]

namespace Filable

theorem bound_iff (h : Filable m c n conn fd) {d : Nat} :
    (m.fileIdle c n conn fd).Bound d ↔ m.Bound d := by
  by_cases hd : d = c
  · subst hd
    refine ⟨fun hb => ?_, fun hb => absurd hb h.not_bound⟩
    have hclt := hb.2
    rw [fileIdle_heap_self, h.cltfd] at hclt
    exact absurd rfl hclt
  · have hn : d < n ↔ d < m.created := by simp [h.created d, hd]
    show (d < n ∧ _) ↔ _
    rw [fileIdle_heap_of_ne hd, hn]
    exact Iff.rfl

theorem idle_iff (h : Filable m c n conn fd) (ht : m.Tables) {d : Nat} :
    (m.fileIdle c n conn fd).Idle d ↔ d = c ∨ m.Idle d := by
  have hnone := ht.conns_fresh h.fresh
  constructor
  · rintro ⟨e, he⟩
    rcases StdMap.insert_get_cases he with hold | ⟨-, hnew, -⟩
    · exact .inr ⟨e, hold⟩
    · cases hnew
      exact .inl rfl
  · rintro (rfl | ⟨e, he⟩)
    · exact ⟨fd, StdMap.insert_get_self _ hnone⟩
    · have hne : e ≠ fd := by
        rintro rfl
        rw [hnone] at he
        cases he
      exact ⟨e, by rw [← he]; exact StdMap.insert_get_of_ne _ _ hne⟩

/-- The only new descriptor is the one just opened. -/
theorem owns (h : Filable m c n conn fd) (ht : m.Tables) {d : Nat} {e : Int}
    (ho : (m.fileIdle c n conn fd).Owns d e) : (d = c ∧ e = fd) ∨ (d ≠ c ∧ m.Owns d e) := by
  by_cases hd : d = c
  · subst hd
    rcases ho with ⟨hb, -⟩ | ⟨-, hsrv⟩
    · exact absurd (h.bound_iff.mp hb) h.not_bound
    · rw [fileIdle_heap_self, h.srvfd] at hsrv
      exact .inl ⟨rfl, hsrv.symm⟩
  · refine .inr ⟨hd, ?_⟩
    simpa only [Owns, h.bound_iff, h.idle_iff ht, fileIdle_heap_of_ne hd, hd, false_or] using ho

/-- On what was owned already nothing changes. -/
theorem ker (h : Filable m c n conn fd) (ht : m.Tables) {d : Nat} {e : Int} (hd : m.Owns d e) :
    (m.fileIdle c n conn fd).ker.opened e = m.ker.opened e ∧
      (m.fileIdle c n conn fd).ker.interest e = m.ker.interest e ∧
      (m.fileIdle c n conn fd).ker.log e = m.ker.log e := by
  simp [fileIdle, Function.update_of_ne (ht.fresh_ne hd h.fresh)]

theorem heap_bound (h : Filable m c n conn fd) {d : Nat} (hd : m.Bound d) :
    (m.fileIdle c n conn fd).heap d = m.heap d :=
  fileIdle_heap_of_ne fun e => h.not_bound (e ▸ hd)

theorem heap_idle (h : Filable m c n conn fd) {d : Nat} (hd : m.Idle d) :
    (m.fileIdle c n conn fd).heap d = m.heap d :=
  fileIdle_heap_of_ne fun e => h.not_idle (e ▸ hd)

theorem keeps (h : Filable m c n conn fd) (ht : m.Tables) :
    Keeps m (m.fileIdle c n conn fd) where
  used := rfl
  bound _ := h.bound_iff
  heap _ hd := h.heap_bound hd
  interest _ _ _ ho := (h.ker ht ho).2.1
  log _ _ _ ho := (h.ker ht ho).2.2

theorem tables (h : Filable m c n conn fd) (ht : m.Tables) (hfreed : m.freed = ∅) :
    (m.fileIdle c n conn fd).Tables := by
  refine ⟨?_, ?_, ?_, ?_, ?_, ?_⟩
  · intro e v hv
    rcases StdMap.insert_get_cases hv with hold | ⟨rfl, rfl, -⟩
    · obtain ⟨d, rfl, hlt, hclt, hsrv⟩ := ht.idle e v hold
      have hheap := h.heap_idle ⟨e, hold⟩
      exact ⟨d, rfl, (h.created d).mpr (.inr hlt), by rwa [hheap], by rwa [hheap]⟩
    · exact ⟨c, rfl, (h.created c).mpr (.inl rfl), by rw [fileIdle_heap_self, h.cltfd],
        by rw [fileIdle_heap_self, h.srvfd]⟩
  · intro e d hd
    have hempty : m.freed[e]? = some d := hd
    rw [hfreed] at hempty
    simp at hempty
  · intro e d hd
    obtain ⟨hb, hside⟩ := ht.used e d hd
    exact ⟨h.bound_iff.mpr hb, by rwa [h.heap_bound hb]⟩
  · intro d e hd
    rcases h.owns ht hd with ⟨-, rfl⟩ | ⟨-, hold⟩
    · exact ⟨h.fresh.1, by simp [fileIdle]⟩
    · rw [(h.ker ht hold).1]
      exact ht.owned d e hold
  · intro d d' e hd hd'
    rcases h.owns ht hd with ⟨hdc, he⟩ | ⟨-, hold⟩
    · rcases h.owns ht hd' with ⟨hdc', -⟩ | ⟨-, hold'⟩
      · exact hdc.trans hdc'.symm
      · exact absurd he (ht.fresh_ne hold' h.fresh)
    · rcases h.owns ht hd' with ⟨-, he⟩ | ⟨-, hold'⟩
      · exact absurd he (ht.fresh_ne hold h.fresh)
      · exact ht.owner d d' e hold hold'
  · intro d hd
    have hb := h.bound_iff.mp hd
    rw [h.heap_bound hb]
    exact ht.sides d hb

theorem served (h : Filable m c n conn fd) (ht : m.Tables) {d : Nat} (hb : m.Bound d)
    (hs : m.Served d) : (m.fileIdle c n conn fd).Served d := by
  obtain ⟨-, hic, hlc⟩ := h.ker ht (owns_clt hb)
  obtain ⟨-, his, hls⟩ := h.ker ht (owns_srv hb)
  constructor
  · rw [h.heap_bound hb, hic]
    exact hs.cltReg
  · rw [h.heap_bound hb, his]
    exact hs.srvReg
  · rw [h.heap_bound hb, hlc, hls]
    exact hs.relays

theorem inv (h : Filable m c n conn fd) (hi : m.Inv) (hfreed : m.freed = ∅) :
    (m.fileIdle c n conn fd).Inv := by
  have ht := hi.tables
  refine ⟨h.tables ht hfreed, ?_, ?_, ?_⟩
  · intro d hd
    by_cases hne : d = c
    · subst hne
      rw [fileIdle_heap_self]
      exact h.clean
    · rw [fileIdle_heap_of_ne hne] at hd ⊢
      exact hi.clean d hd
  · intro d hd
    have hb := h.bound_iff.mp hd
    exact h.served ht hb (hi.served d hb)
  · intro d hd
    rcases (h.idle_iff ht).mp hd with rfl | hold
    · rw [fileIdle_heap_self, h.srvfd]
      simp [fileIdle]
    · rw [h.heap_idle hold, (h.ker ht (owns_idle hold)).2.2]
      exact hi.idleLog d hold

end Filable

end File

/-! ## recycle_conns -/

section Recycle

variable {m : Mgr}

/-- A connection taken from `m_freed` may be filed again. -/
theorem filable_reconnect {c : Nat} {fd : Int} (hi : m.Inv) (hlt : c < m.created)
    (hclt : (m.heap c).cltfd = -1) (hidle : ¬ m.Idle c) (hf : m.ker.Fresh fd) :
    Filable m c m.created ((m.heap c).initSrv fd) fd where
  created d := ⟨.inr, fun h => h.elim (fun e => e ▸ hlt) id⟩
  not_bound hb := hb.2 hclt
  not_idle := hidle
  cltfd := hclt
  srvfd := rfl
  clean := by
    have hclean := hi.clean c hclt
    rw [← hclean]
    rfl
  fresh := hf

theorem reconnect_some (c : Nat) (fd : Int) :
    m.reconnect c (some fd) = m.fileIdle c m.created ((m.heap c).initSrv fd) fd := rfl

/-- What the loop of `recycle_conns` makes of `m`: the entries whose reconnect succeeded, and only
they, become idle. -/
structure Recycled (es : List (Int × Nat)) (os : List (Option Int)) (m m' : Mgr) : Prop where
  inv : m'.Inv
  keeps : Keeps m m'
  created : m'.created = m.created
  idle : ∀ d, m'.Idle d ↔ m.Idle d ∨ ∃ fd, (d, some fd) ∈ (es.map Prod.snd).zip os
  size : m'.conns.size = m.conns.size + (os.take es.length).countP Option.isSome

theorem Recycled.nil (hi : m.Inv) (es : List (Int × Nat)) (os : List (Option Int))
    (hend : es = [] ∨ os = []) : Recycled es os m m := by
  rcases hend with rfl | rfl
  · exact ⟨hi, .refl m, rfl, by simp, by simp⟩
  · exact ⟨hi, .refl m, rfl, by simp, by simp⟩

/-- An entry whose reconnect fails is in no map afterwards either. -/
theorem Recycled.failed {es : List (Int × Nat)} {os : List (Option Int)} {m' : Mgr}
    (hrec : Recycled es os m m') (e : Int × Nat) : Recycled (e :: es) (none :: os) m m' := by
  refine ⟨hrec.inv, hrec.keeps, hrec.created, fun d => ?_, ?_⟩
  · rw [hrec.idle d]
    simp
  · rw [hrec.size]
    simp

/-- An entry whose reconnect succeeds is idle. -/
theorem Recycled.connected {es : List (Int × Nat)} {os : List (Option Int)} {tmp : Nat} {fd : Int}
    {m' : Mgr} (hi : m.Inv) (hfile : Filable m tmp m.created ((m.heap tmp).initSrv fd) fd)
    (hrec : Recycled es os (m.reconnect tmp (some fd)) m') (key : Int) :
    Recycled ((key, tmp) :: es) (some fd :: os) m m' := by
  rw [reconnect_some] at hrec
  refine ⟨hrec.inv, (hfile.keeps hi.tables).trans hrec.keeps, hrec.created, fun d => ?_, ?_⟩
  · rw [hrec.idle d, hfile.idle_iff hi.tables]
    simp only [List.map_cons, List.zip_cons_cons, List.mem_cons, Prod.mk.injEq,
      Option.some.injEq]
    constructor
    · rintro ((rfl | h) | ⟨fd', h⟩)
      · exact .inr ⟨fd, .inl ⟨rfl, rfl⟩⟩
      · exact .inl h
      · exact .inr ⟨fd', .inr h⟩
    · rintro (h | ⟨fd', ⟨rfl, -⟩ | h⟩)
      · exact .inl (.inr h)
      · exact .inl (.inl rfl)
      · exact .inr ⟨fd', h⟩
  · have hsize : (m.fileIdle tmp m.created ((m.heap tmp).initSrv fd) fd).conns.size =
        m.conns.size + 1 := StdMap.size_insert _ (hi.tables.conns_fresh hfile.fresh)
    rw [hrec.size, hsize]
    simp only [List.length_cons, List.take_succ_cons, List.countP_cons, Option.isSome_some,
      if_true]
    omega

/-- A connection that is to be reconnected: it has no client and is in no map. -/
def Waiting (m : Mgr) (c : Nat) : Prop := c < m.created ∧ (m.heap c).cltfd = -1 ∧ ¬ m.Idle c

theorem Waiting.reconnect {c tmp : Nat} {fd : Int} (hi : m.Inv)
    (hfile : Filable m tmp m.created ((m.heap tmp).initSrv fd) fd) (hc : Waiting m c)
    (hne : c ≠ tmp) : Waiting (m.reconnect tmp (some fd)) c := by
  obtain ⟨hlt, hclt, hidle⟩ := hc
  rw [reconnect_some]
  refine ⟨hlt, by rwa [fileIdle_heap_of_ne hne], ?_⟩
  rw [hfile.idle_iff hi.tables]
  rintro (h | h)
  · exact hne h
  · exact hidle h

/-- The loop of `recycle_conns`, over entries that are in no map. -/
theorem recycleLoop_spec (es : List (Int × Nat)) (os : List (Option Int)) (hi : m.Inv)
    (hfreed : m.freed = ∅) (hes : ∀ e ∈ es, Waiting m e.2)
    (hnodup : es.Pairwise (fun a b => a.2 ≠ b.2)) (hos : ∀ fd, some fd ∈ os → m.ker.Fresh fd)
    (hdistinct : os.Pairwise (fun a b => a = none ∨ a ≠ b)) :
    Recycled es os m (recycleLoop es os m) := by
  induction es generalizing m os with
  | nil =>
    unfold recycleLoop
    exact .nil hi _ _ (.inl rfl)
  | cons e es ih =>
    cases os with
    | nil =>
      unfold recycleLoop
      exact .nil hi _ _ (.inr rfl)
    | cons o os =>
      obtain ⟨key, tmp⟩ := e
      obtain ⟨hne, hnodup'⟩ := List.pairwise_cons.mp hnodup
      obtain ⟨hone, hdistinct'⟩ := List.pairwise_cons.mp hdistinct
      have hrest : ∀ e ∈ es, Waiting m e.2 := fun e he => hes e (List.mem_cons_of_mem _ he)
      have hfresh : ∀ fd, some fd ∈ os → m.ker.Fresh fd :=
        fun fd hfd => hos fd (List.mem_cons_of_mem _ hfd)
      show Recycled _ _ m (recycleLoop es os (m.reconnect tmp o))
      cases o with
      | none => exact (ih os hi hfreed hrest hnodup' hfresh hdistinct').failed (key, tmp)
      | some fd =>
        obtain ⟨hlt, hclt, hidle⟩ := hes (key, tmp) List.mem_cons_self
        have hf : m.ker.Fresh fd := hos fd List.mem_cons_self
        have hfile := filable_reconnect hi hlt hclt hidle hf
        refine .connected hi hfile (ih os (hfile.inv hi hfreed) hfreed ?_ hnodup' ?_ hdistinct') key
        · exact fun e he => (hrest e he).reconnect hi hfile (hne e he).symm
        · intro fd' hfd'
          have hfdne : fd' ≠ fd := by
            rintro rfl
            rcases hone _ hfd' with h | h
            · cases h
            · exact h rfl
          have hold := hfresh fd' hfd'
          exact ⟨hold.1, by
            simpa [reconnect_some, fileIdle, Function.update_of_ne hfdne] using hold.2⟩

/-- `m_freed` can be emptied at any time. -/
theorem Inv.clearFreed (hi : m.Inv) : ({ m with freed := ∅ } : Mgr).Inv where
  tables := { hi.tables with freed := fun fd c h => by simp at h }
  clean := hi.clean
  served := fun c hc => ⟨(hi.served c hc).cltReg, (hi.served c hc).srvReg, (hi.served c hc).relays⟩
  idleLog := hi.idleLog

theorem recycleLoop_freed (es : List (Int × Nat)) (os : List (Option Int)) (f : FdMap Nat)
    (m : Mgr) :
    recycleLoop es os { m with freed := f } = { recycleLoop es os m with freed := f } := by
  induction es generalizing os m with
  | nil =>
    unfold recycleLoop
    rfl
  | cons e es ih =>
    cases os with
    | nil =>
      unfold recycleLoop
      rfl
    | cons o os =>
      have hstep : Mgr.reconnect e.2 o { m with freed := f } =
          { Mgr.reconnect e.2 o m with freed := f } := by
        cases o <;> rfl
      show recycleLoop es os (Mgr.reconnect e.2 o { m with freed := f }) = _
      rw [hstep]
      exact ih os (m.reconnect e.2 o)

/-- The entries of `m_freed` are distinct connections. -/
theorem Tables.freed_distinct (ht : m.Tables) :
    m.freed.toList.Pairwise (fun a b => a.2 ≠ b.2) := by
  refine (StdMap.toList_keys m.freed).imp_of_mem ?_
  rintro ⟨fd, c⟩ ⟨fd', c'⟩ ha hb hne (rfl : c = c')
  obtain ⟨-, -, hsrv, -⟩ := ht.freed fd c (StdMap.mem_toList.mp ha)
  obtain ⟨-, -, hsrv', -⟩ := ht.freed fd' c (StdMap.mem_toList.mp hb)
  exact hne (hsrv.symm.trans hsrv')

theorem recycleConns_spec {os : List (Option Int)} (hi : m.Inv) (hos : m.ReconnectsOk os) :
    Recycled m.freed.toList os m (m.recycleConns os) := by
  unfold recycleConns
  split
  · rename_i hempty
    have hnil : m.freed.toList = [] := by
      rw [← List.isEmpty_iff, Std.TreeMap.isEmpty_toList]
      exact hempty
    rw [hnil]
    exact ⟨hi, .refl m, rfl, by simp, by simp⟩
  · obtain ⟨-, hfresh, hdistinct⟩ := hos
    have hes : ∀ e ∈ m.freed.toList, e.2 < m.created ∧ (m.heap e.2).cltfd = -1 ∧ ¬ m.Idle e.2 := by
      rintro ⟨fd, c⟩ he
      obtain ⟨hlt, hclt, -, hidle, -⟩ := hi.tables.freed fd c (StdMap.mem_toList.mp he)
      exact ⟨hlt, hclt, hidle⟩
    rw [← recycleLoop_freed]
    have hclear : Keeps m { m with freed := ∅ } :=
      ⟨rfl, fun _ => Iff.rfl, fun _ _ => rfl, fun _ _ _ _ => rfl, fun _ _ _ _ => rfl⟩
    obtain ⟨hinv, hkeeps, hcreated, hidle, hsize⟩ := recycleLoop_spec m.freed.toList os
      hi.clearFreed rfl hes hi.tables.freed_distinct (fun fd hfd => hfresh _ hfd fd rfl) hdistinct
    exact ⟨hinv, hclear.trans hkeeps, hcreated, hidle, hsize⟩

/-- Afterwards `m_freed` is empty, whatever became of its entries. -/
theorem recycleConns_freed (os : List (Option Int)) (m : Mgr) :
    (m.recycleConns os).freed.isEmpty = true := by
  unfold recycleConns
  split
  · assumption
  · rfl

end Recycle

/-! ## The constructor -/

section Create

/-- While the constructor runs, nothing is freed or used and the objects not made yet are blank. -/
structure Building (m : Mgr) : Prop where
  inv : m.Inv
  freed : m.freed = ∅
  used : m.used = ∅
  blank : ∀ c, (m.heap c).cltfd = -1

theorem empty_building (k : Kernel Interest) : (empty k).Building where
  inv := by
    have hbound : ∀ {c}, ¬ (empty k).Bound c := fun h => absurd h.1 (Nat.not_lt_zero _)
    have hidle : ∀ {c}, ¬ (empty k).Idle c := by
      rintro c ⟨fd, hfd⟩
      simp [empty] at hfd
    have howns : ∀ {c fd}, ¬ (empty k).Owns c fd := by
      rintro c fd (⟨h, -⟩ | ⟨h | h, -⟩)
      · exact hbound h
      · exact hbound h
      · exact hidle h
    refine ⟨⟨?_, ?_, ?_, ?_, ?_, ?_⟩, ?_, ?_, ?_⟩
    · exact fun fd v h => by simp [empty] at h
    · exact fun fd c h => by simp [empty] at h
    · exact fun fd c h => by simp [empty] at h
    · exact fun c fd h => absurd h howns
    · exact fun c c' fd h _ => absurd h howns
    · exact fun c h => absurd h hbound
    · exact fun c _ => rfl
    · exact fun c h => absurd h hbound
    · exact fun c h => absurd h hidle
  freed := rfl
  used := rfl
  blank _ := rfl

theorem buildConn_building {m : Mgr} {o : BuildOutcome} (h : m.Building) (hok : builder.ok m o) :
    (m.buildConn o).Building := by
  cases o with
  | refused => exact h
  | noMemory fd =>
    have hf : m.ker.Fresh fd := hok
    refine ⟨h.inv.withKer _ fun c e he => ?_, h.freed, h.used, h.blank⟩
    have hne := h.inv.tables.fresh_ne he hf
    simp [Function.update_of_ne hne]
  | built fd =>
    have hf : m.ker.Fresh fd := hok
    have hfile : Filable m m.created (m.created + 1) (Conn.create.initSrv fd) fd := by
      refine ⟨fun d => by omega, fun hb => absurd hb.1 (Nat.lt_irrefl _), ?_, rfl, rfl, rfl, hf⟩
      rintro ⟨e, he⟩
      exact Nat.lt_irrefl _ (h.inv.tables.idle_conn he).1
    refine ⟨hfile.inv h.inv h.freed, h.freed, h.used, fun c => ?_⟩
    show (Function.update m.heap m.created (Conn.create.initSrv fd) c).cltfd = -1
    by_cases hc : c = m.created
    · subst hc
      simp only [Function.update_self]
      rfl
    · rw [Function.update_of_ne hc]
      exact h.blank c

theorem create_building {k : Kernel Interest} {os : List BuildOutcome}
    (hv : builder.Valid (empty k) os) : (create k os).Building :=
  Machine.run_inv (fun _ _ h hok => buildConn_building h hok) (empty_building k) hv

theorem create_inv {k : Kernel Interest} {os : List BuildOutcome}
    (hv : builder.Valid (empty k) os) : (create k os).Inv := (create_building hv).inv

end Create

end Mgr

/-! ## The event loop -/

/-- A step of a child hands a descriptor to `process`, binds a client, or leaves the bound
connections alone. -/
theorem child_step_cases (p : Pipes) (s : Child) (i : Input) (hi : s.mgr.Inv)
    (hok : (child p).ok s i) :
    (∃ fd type io, s.hands p i = some (fd, type, io) ∧ type ≠ .error ∧
      ((child p).step s i).mgr = (s.mgr.process fd type io).2) ∨
    (s.hands p i = none ∧ ∃ c srvfd connfd, s.mgr.conns[srvfd]? = some (some c) ∧
      s.mgr.ker.Fresh connfd ∧ ((child p).step s i).mgr = s.mgr.bindClient c srvfd connfd) ∨
    (s.hands p i = none ∧ ((child p).step s i).mgr.Inv ∧
      Mgr.Keeps s.mgr ((child p).step s i).mgr) := by
  cases i with
  | wait r =>
    cases r with
    | failed => exact .inr (.inr ⟨rfl, hi, .refl _⟩)
    | interrupted => exact .inr (.inr ⟨rfl, hi, .refl _⟩)
    | timeout os =>
      have hrec := Mgr.recycleConns_spec hi hok.2.2
      exact .inr (.inr ⟨rfl, hrec.inv, hrec.keeps⟩)
    | ready evs => exact .inr (.inr ⟨rfl, hi, .refl _⟩)
  | next env =>
    obtain ⟨hbatch, hacc⟩ := hok
    obtain ⟨ev, rest, hb⟩ := List.exists_cons_of_ne_nil hbatch
    have hstep : (child p).step s (.next env) = Child.handle p ev env { s with batch := rest } := by
      show Child.step p s (.next env) = _
      simp only [Child.step, hb]
    have hhands : s.hands p (.next env) = (ev.opType p).map fun type => (ev.fd, type, env.io) := by
      simp only [Child.hands, hb]
    rw [hstep, hhands]
    rcases Child.handle_cases p ev env { s with batch := rest } with
      ⟨connfd, hfd, hop, h⟩ | ⟨type, hop, hne, h⟩ | ⟨hop, h⟩
    · have hf := hacc connfd hfd
      rw [h, hop]
      rcases Mgr.takeClient_cases hi.tables connfd with ⟨-, ht⟩ | ⟨srvfd, c, hc, ht⟩
      · refine .inr (.inr ⟨rfl, ?_, ?_⟩)
        · show (s.mgr.takeClient connfd).2.Inv
          rw [ht]; exact Mgr.rejectClient_inv hi hf
        · show Mgr.Keeps s.mgr (s.mgr.takeClient connfd).2
          rw [ht]; exact Mgr.rejectClient_keeps hi.tables hf
      · exact .inr (.inl ⟨rfl, c, srvfd, connfd, hc, hf, by
          show (s.mgr.takeClient connfd).2 = _
          rw [ht]⟩)
    · exact .inl ⟨ev.fd, type, env.io, by rw [hop]; rfl, hne, h⟩
    · rw [h, hop]
      exact .inr (.inr ⟨rfl, hi, .refl _⟩)

/-- Every step of a child keeps the invariant of its manager. -/
theorem child_step_inv (p : Pipes) (s : Child) (i : Input) (hi : s.mgr.Inv)
    (hok : (child p).ok s i) : ((child p).step s i).mgr.Inv := by
  rcases child_step_cases p s i hi hok with
    ⟨fd, type, io, -, -, h⟩ | ⟨-, c, srvfd, connfd, hc, hf, h⟩ | ⟨-, h, -⟩
  · rw [h]; exact Mgr.process_inv hi fd type io
  · rw [h]; exact Mgr.bindClient_inv hi hc hf
  · exact h

/-- What holds after a step of a child, when it holds after a client is bound and after the bound
connections were left alone, and `process` makes it hold under a condition on what it is handed. -/
theorem child_step_iff {p : Pipes} {s : Child} {i : Input} (hi : s.mgr.Inv)
    (hok : (child p).ok s i) {P : Mgr → Prop} {Q : Int × OpType × Io → Prop}
    (hprocess : ∀ fd type io, type ≠ .error →
      (P (s.mgr.process fd type io).2 ↔ Q (fd, type, io)))
    (hbind : ∀ c srvfd connfd, s.mgr.conns[srvfd]? = some (some c) → s.mgr.ker.Fresh connfd →
      P (s.mgr.bindClient c srvfd connfd))
    (hkeeps : ∀ m', Mgr.Keeps s.mgr m' → P m') :
    P ((child p).step s i).mgr ↔ ∀ h ∈ s.hands p i, Q h := by
  have hnone : s.hands p i = none → ∀ h ∈ s.hands p i, Q h := by
    intro hhands h hh
    rw [hhands] at hh
    cases hh
  rcases child_step_cases p s i hi hok with
    ⟨fd, type, io, hhands, htype, hstep⟩ | ⟨hhands, c, srvfd, connfd, hc, hf, hstep⟩ |
      ⟨hhands, -, hk⟩
  · rw [hstep, hprocess fd type io htype, hhands]
    constructor
    · intro hQ h hh
      cases hh
      exact hQ
    · intro hall
      exact hall (fd, type, io) rfl
  · rw [hstep]
    exact ⟨fun _ => hnone hhands, fun _ => hbind c srvfd connfd hc hf⟩
  · exact ⟨fun _ => hnone hhands, fun _ => hkeeps _ hk⟩

theorem child_inv {p : Pipes} {k : Kernel Interest} {os : List Mgr.BuildOutcome} {is : List Input}
    (hv : Mgr.builder.Valid (Mgr.empty k) os)
    (hr : (child p).Valid (Child.start (Mgr.create k os)) is) :
    (child p).Always (fun s => s.mgr.Inv) (Child.start (Mgr.create k os)) is :=
  Machine.always_inv (child_step_inv p) (Mgr.create_inv hv) hr

end Springsnail
end Unpvol1
