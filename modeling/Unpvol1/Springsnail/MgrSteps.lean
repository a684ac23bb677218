import Unpvol1.Springsnail.MgrInv

/-!
# Springsnail.MgrSteps

`process` and `free_conn` keep `Mgr.Inv`.

`process_cases` says what `process` can do: nothing, because `m_used` has no connection under the
descriptor; touch one bound connection and keep it; or touch it and free it.
-/

namespace Unpvol1
namespace Springsnail
namespace Mgr

/-! ## process -/

section Process

variable {m : Mgr} {c : Nat} {fd : Int}

/-- The client half of `process` touches its connection and then keeps or frees it. -/
theorem processClt_cases (type : OpType) (io : Io) (hi : m.Inv) (hb : m.Bound c)
    (hfd : (m.heap c).cltfd = fd) :
    ∃ m', Touches m m' c ∧ m'.Served c ∧
      (m.processClt fd type io c = (.ok, m') ∨
        m.processClt fd type io c = (.closed, m'.freeConn c)) := by
  have hne := hi.tables.sides c hb
  have hserved := hi.served c hb
  cases type with
  | error => exact ⟨m, .refl m c, hserved, .inl rfl⟩
  | read =>
    have ht := touches_transfer (c := c) (m := m) (.readClt io.recvs)
    have hs := served_transfer (.readClt io.recvs) hne hserved
    have hmod := (ht.trans (touches_modfd _ epollout (.inr (ht.srvfd c).symm)))
    have hsmod := served_modfd (m.heap c).srvfd epollout hs
    simp only [processClt]
    split
    · exact ⟨_, ht, hs, .inr rfl⟩
    · exact ⟨_, ht, hs, .inr rfl⟩
    · split
      · split
        · exact ⟨_, hmod, hsmod, .inr rfl⟩
        · exact ⟨_, hmod, hsmod, .inl rfl⟩
      · split
        · exact ⟨_, hmod, hsmod, .inr rfl⟩
        · exact ⟨_, hmod, hsmod, .inl rfl⟩
      · split
        · exact ⟨_, ht, hs, .inr rfl⟩
        · exact ⟨_, ht, hs, .inl rfl⟩
  | write =>
    have ht := touches_transfer (c := c) (m := m) (.writeClt io.sends)
    have hs := served_transfer (.writeClt io.sends) hne hserved
    have hfd' :
        fd = ((m.transferred c ((Transfer.writeClt io.sends).apply (m.heap c))).heap c).cltfd := by
      rw [ht.cltfd, hfd]
    have hout := ht.trans (touches_modfd _ epollout (.inl hfd'))
    have hin1 := ht.trans (touches_modfd _ epollin (.inr (ht.srvfd c).symm))
    have hin := hin1.trans (touches_modfd fd epollin (.inl (by rw [hin1.cltfd, hfd])))
    simp only [processClt]
    split
    · exact ⟨_, ht, hs, .inr rfl⟩
    · exact ⟨_, ht, hs, .inr rfl⟩
    · split
      · split
        · exact ⟨_, hout, served_modfd _ _ hs, .inr rfl⟩
        · exact ⟨_, hout, served_modfd _ _ hs, .inl rfl⟩
      · split
        · exact ⟨_, hin, served_modfd _ _ (served_modfd _ _ hs), .inr rfl⟩
        · exact ⟨_, hin, served_modfd _ _ (served_modfd _ _ hs), .inl rfl⟩
      · split
        · exact ⟨_, ht, hs, .inr rfl⟩
        · exact ⟨_, ht, hs, .inl rfl⟩

theorem touches_markSrvClosed (m : Mgr) (c : Nat) : Touches m (m.markSrvClosed c) c :=
  touches_setConn rfl rfl

/-- The server half of `process` touches its connection and keeps it. -/
theorem processSrv_cases (type : OpType) (io : Io) (hi : m.Inv) (hb : m.Bound c)
    (hfd : (m.heap c).srvfd = fd) :
    ∃ m', Touches m m' c ∧ m'.Served c ∧ m.processSrv fd type io c = (.ok, m') := by
  have hne := hi.tables.sides c hb
  have hserved := hi.served c hb
  cases type with
  | error => exact ⟨m, .refl m c, hserved, rfl⟩
  | read =>
    have ht := touches_transfer (c := c) (m := m) (.readSrv io.recvs)
    have hs := served_transfer (.readSrv io.recvs) hne hserved
    have hout := ht.trans (touches_modfd _ epollout (.inl (ht.cltfd c).symm))
    simp only [processSrv]
    split
    · exact ⟨_, hout, served_modfd _ _ hs, rfl⟩
    · exact ⟨_, hout, served_modfd _ _ hs, rfl⟩
    · exact ⟨_, hout.trans (touches_markSrvClosed _ c),
        served_markSrvClosed (served_modfd _ _ hs), rfl⟩
    · exact ⟨_, hout.trans (touches_markSrvClosed _ c),
        served_markSrvClosed (served_modfd _ _ hs), rfl⟩
    · exact ⟨_, ht, hs, rfl⟩
  | write =>
    have ht := touches_transfer (c := c) (m := m) (.writeSrv io.sends)
    have hs := served_transfer (.writeSrv io.sends) hne hserved
    have hfd' :
        fd = ((m.transferred c ((Transfer.writeSrv io.sends).apply (m.heap c))).heap c).srvfd := by
      rw [ht.srvfd, hfd]
    have hclt := ht.trans (touches_modfd _ epollout (.inl (ht.cltfd c).symm))
    have hsrv := ht.trans (touches_modfd _ epollout (.inr hfd'))
    have hin1 := ht.trans (touches_modfd _ epollin (.inl (ht.cltfd c).symm))
    have hin := hin1.trans (touches_modfd fd epollin (.inr (by rw [hin1.srvfd, hfd])))
    simp only [processSrv]
    split
    · exact ⟨_, hsrv, served_modfd _ _ hs, rfl⟩
    · exact ⟨_, hin, served_modfd _ _ (served_modfd _ _ hs), rfl⟩
    · exact ⟨_, hclt.trans (touches_markSrvClosed _ c),
        served_markSrvClosed (served_modfd _ _ hs), rfl⟩
    · exact ⟨_, hclt.trans (touches_markSrvClosed _ c),
        served_markSrvClosed (served_modfd _ _ hs), rfl⟩
    · exact ⟨_, ht, hs, rfl⟩

theorem usedAt_eq_some {fd : Int} : (m.usedAt fd).1 = some c ↔ m.used[fd]? = some (some c) := by
  simp only [usedAt]
  cases m.used[fd]? with
  | none => simp
  | some v => simp

/-- A lookup leaves at most a NULL behind. -/
theorem usedAt_inv (hi : m.Inv) (fd : Int) : (m.usedAt fd).2.Inv where
  tables :=
    { hi.tables with
      used := fun e d he => by
        rcases StdMap.insert_get_cases he with h | ⟨-, h, -⟩
        · exact hi.tables.used e d h
        · cases h }
  clean := hi.clean
  served := fun d hd => ⟨(hi.served d hd).cltReg, (hi.served d hd).srvReg, (hi.served d hd).relays⟩
  idleLog := hi.idleLog

theorem process_of_none {type : OpType} {io : Io} (h : ∀ c, m.used[fd]? ≠ some (some c)) :
    m.process fd type io = (.nothing, (m.usedAt fd).2) := by
  unfold process
  split
  · rename_i m0 hnone
    rw [hnone]
  · rename_i c m0 hsome
    exact absurd (usedAt_eq_some.mp (by rw [hsome])) (h c)

/-- `process` on a descriptor of a bound connection is one of its two halves. -/
theorem process_of_some {type : OpType} {io : Io} (hi : m.Inv)
    (h : m.used[fd]? = some (some c)) :
    m.process fd type io =
      if (m.heap c).cltfd = fd then (m.usedAt fd).2.processClt fd type io c
      else (m.usedAt fd).2.processSrv fd type io c := by
  have hfd := (hi.tables.used fd c h).2
  have hsome := usedAt_eq_some.mpr h
  unfold process
  split
  · rename_i m0 hnone
    rw [hnone] at hsome
    cases hsome
  · rename_i c' m0 heq
    have hm0 : (m.usedAt fd).2 = m0 := by rw [heq]
    rw [heq] at hsome
    cases hsome
    subst hm0
    show (if (m.heap c).cltfd = fd then _ else if (m.heap c).srvfd = fd then _ else _) = _
    by_cases hclt : (m.heap c).cltfd = fd
    · rw [if_pos hclt, if_pos hclt]
    · rw [if_neg hclt, if_pos (hfd.resolve_left hclt), if_neg hclt]

/-- What `process` can do. -/
theorem process_cases (hi : m.Inv) (fd : Int) (type : OpType) (io : Io) :
    ((∀ c, m.used[fd]? ≠ some (some c)) ∧ m.process fd type io = (.nothing, (m.usedAt fd).2)) ∨
    ∃ c, m.used[fd]? = some (some c) ∧ m.Bound c ∧ ∃ m', Touches m m' c ∧ m'.Served c ∧
      (m.process fd type io = (.ok, m') ∨ m.process fd type io = (.closed, m'.freeConn c)) := by
  by_cases hnone : ∀ c, m.used[fd]? ≠ some (some c)
  · exact .inl ⟨hnone, process_of_none hnone⟩
  · obtain ⟨c, hc⟩ := not_forall.mp hnone
    have hused : m.used[fd]? = some (some c) := not_not.mp hc
    obtain ⟨hb, hfd⟩ := hi.tables.used fd c hused
    have htouch := touches_usedAt hused c
    have hi0 := usedAt_inv hi fd
    have hb0 := (htouch.bound_iff c).mpr hb
    refine .inr ⟨c, hused, hb, ?_⟩
    rw [process_of_some hi hused]
    split
    · rename_i hclt
      obtain ⟨m', ht, hs, hres⟩ := processClt_cases type io hi0 hb0 hclt
      exact ⟨m', htouch.trans ht, hs, hres⟩
    · rename_i hclt
      obtain ⟨m', ht, hs, hres⟩ := processSrv_cases type io hi0 hb0 (hfd.resolve_left hclt)
      exact ⟨m', htouch.trans ht, hs, .inl hres⟩

end Process

/-! ## free_conn -/

section Free

variable {m : Mgr} {c : Nat}

theorem freeConn_heap : (m.freeConn c).heap = Function.update m.heap c (m.heap c).reset := rfl

theorem freeConn_heap_of_ne {d : Nat} (h : d ≠ c) : (m.freeConn c).heap d = m.heap d := by
  rw [freeConn_heap, Function.update_of_ne h]

theorem freeConn_used : (m.freeConn c).used =
    (m.used.erase (m.heap c).cltfd).erase (m.heap c).srvfd := rfl

theorem freeConn_log : (m.freeConn c).ker.log = m.ker.log := rfl

theorem freeConn_bound {d : Nat} : (m.freeConn c).Bound d ↔ d ≠ c ∧ m.Bound d := by
  by_cases hd : d = c
  · subst hd
    simp [Bound, freeConn_heap, Conn.reset]
  · simp only [Bound, freeConn_heap_of_ne hd]
    exact ⟨fun h => ⟨hd, h⟩, fun h => h.2⟩

theorem freeConn_idle {d : Nat} : (m.freeConn c).Idle d ↔ m.Idle d := Iff.rfl

/-- Closing the descriptors of `c` changes nothing about any other descriptor. -/
theorem freeConn_ker {fd : Int} (h1 : fd ≠ (m.heap c).cltfd) (h2 : fd ≠ (m.heap c).srvfd) :
    (m.freeConn c).ker.opened fd = m.ker.opened fd ∧
      (m.freeConn c).ker.interest fd = m.ker.interest fd := by
  simp [freeConn, closefd, setConn, Function.update_of_ne h1, Function.update_of_ne h2]

theorem freeConn_owns (ht : m.Tables) (hb : m.Bound c) {d : Nat} {fd : Int}
    (h : (m.freeConn c).Owns d fd) : d ≠ c ∧ m.Owns d fd := by
  have hd : d ≠ c := by
    rintro rfl
    rcases h with ⟨h, -⟩ | ⟨h | h, -⟩
    · exact (freeConn_bound.mp h).1 rfl
    · exact (freeConn_bound.mp h).1 rfl
    · exact ht.not_bound_of_idle (freeConn_idle.mp h) hb
  refine ⟨hd, ?_⟩
  simpa only [Owns, freeConn_bound, freeConn_idle, freeConn_heap_of_ne hd, ne_eq, hd,
    not_false_eq_true, true_and] using h

/-- What the other `conn`s own is none of the two descriptors that are closed. -/
theorem freeConn_fd_ne (ht : m.Tables) (hb : m.Bound c) {d : Nat} {fd : Int}
    (hd : (m.freeConn c).Owns d fd) : fd ≠ (m.heap c).cltfd ∧ fd ≠ (m.heap c).srvfd := by
  obtain ⟨hne, hown⟩ := freeConn_owns ht hb hd
  exact ⟨ht.fd_ne (owns_clt hb) hown hne, ht.fd_ne (owns_srv hb) hown hne⟩

theorem freeConn_serverFd (ht : m.Tables) (hb : m.Bound c) {fd : Int}
    (h : (m.freeConn c).ServerFd fd) : m.ServerFd fd ∧ fd ≠ (m.heap c).srvfd := by
  obtain ⟨d, hlive, hsrv⟩ := h
  have hown : (m.freeConn c).Owns d fd := .inr ⟨hlive, hsrv⟩
  obtain ⟨hne, -⟩ := freeConn_owns ht hb hown
  rw [freeConn_heap_of_ne hne] at hsrv
  rw [freeConn_bound, freeConn_idle] at hlive
  exact ⟨⟨d, hlive.imp_left And.right, hsrv⟩, (freeConn_fd_ne ht hb hown).2⟩

theorem freeConn_tables (ht : m.Tables) (hb : m.Bound c) : (m.freeConn c).Tables := by
  refine ⟨?_, ?_, ?_, ?_, ?_, ?_⟩
  · intro fd v hv
    obtain ⟨d, rfl, hlt, hclt, hsrv⟩ := ht.idle fd v hv
    have hne : d ≠ c := ht.idle_ne_bound ⟨fd, hv⟩ hb
    exact ⟨d, rfl, hlt, by rwa [freeConn_heap_of_ne hne], by rwa [freeConn_heap_of_ne hne]⟩
  · intro fd d hd
    rcases StdMap.insert_get_cases hd with h | ⟨rfl, rfl, -⟩
    · obtain ⟨hlt, hclt, hsrv, hidle, hfree⟩ := ht.freed fd d h
      have hne : d ≠ c := by rintro rfl; exact hb.2 hclt
      exact ⟨hlt, by rwa [freeConn_heap_of_ne hne], by rwa [freeConn_heap_of_ne hne], hidle,
        fun he => hfree (freeConn_serverFd ht hb he).1⟩
    · refine ⟨hb.1, by simp [freeConn_heap, Conn.reset], by simp [freeConn_heap, Conn.reset],
        ?_, ?_⟩
      · exact fun he => ht.idle_ne_bound he hb rfl
      · exact fun he => (freeConn_serverFd ht hb he).2 rfl
  · intro fd d hd
    obtain ⟨hsrv, hd⟩ := StdMap.get_of_erase_get hd
    obtain ⟨hclt, hd⟩ := StdMap.get_of_erase_get hd
    obtain ⟨hbd, hside⟩ := ht.used fd d hd
    have hne : d ≠ c := by
      rintro rfl
      rcases hside with h | h
      · exact hclt h.symm
      · exact hsrv h.symm
    exact ⟨freeConn_bound.mpr ⟨hne, hbd⟩, by rwa [freeConn_heap_of_ne hne]⟩
  · intro d fd hd
    obtain ⟨hclt, hsrv⟩ := freeConn_fd_ne ht hb hd
    rw [(freeConn_ker hclt hsrv).1]
    exact ht.owned d fd (freeConn_owns ht hb hd).2
  · intro d d' fd hd hd'
    exact ht.owner d d' fd (freeConn_owns ht hb hd).2 (freeConn_owns ht hb hd').2
  · intro d hd
    obtain ⟨hne, hbd⟩ := freeConn_bound.mp hd
    rw [freeConn_heap_of_ne hne]
    exact ht.sides d hbd

theorem freeConn_inv (hi : m.Inv) (hb : m.Bound c) : (m.freeConn c).Inv := by
  have ht := hi.tables
  refine ⟨freeConn_tables ht hb, ?_, ?_, ?_⟩
  · intro d hd
    by_cases hne : d = c
    · subst hne; simp [freeConn_heap, Conn.reset]
    · rw [freeConn_heap_of_ne hne] at hd ⊢
      exact hi.clean d hd
  · intro d hd
    obtain ⟨hne, hbd⟩ := freeConn_bound.mp hd
    have hs := hi.served d hbd
    have hclt := freeConn_ker (ht.fd_ne (owns_clt hb) (owns_clt hbd) hne)
      (ht.fd_ne (owns_srv hb) (owns_clt hbd) hne)
    have hsrv := freeConn_ker (ht.fd_ne (owns_clt hb) (owns_srv hbd) hne)
      (ht.fd_ne (owns_srv hb) (owns_srv hbd) hne)
    constructor
    · rw [freeConn_heap_of_ne hne, hclt.2]; exact hs.cltReg
    · rw [freeConn_heap_of_ne hne, hsrv.2]; exact hs.srvReg
    · rw [freeConn_heap_of_ne hne]; exact hs.relays
  · intro d hd
    rw [freeConn_heap_of_ne (ht.idle_ne_bound (freeConn_idle.mp hd) hb)]
    exact hi.idleLog d hd

end Free

theorem process_inv {m : Mgr} (hi : m.Inv) (fd : Int) (type : OpType) (io : Io) :
    (m.process fd type io).2.Inv := by
  rcases process_cases hi fd type io with ⟨-, h⟩ | ⟨c, -, hb, m', ht, hs, h | h⟩
  · rw [h]; exact usedAt_inv hi fd
  · rw [h]; exact ht.inv hi hb hs
  · rw [h]; exact freeConn_inv (ht.inv hi hb hs) ((ht.bound_iff c).mpr hb)

end Mgr
end Springsnail
end Unpvol1
