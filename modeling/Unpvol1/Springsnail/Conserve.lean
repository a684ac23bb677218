import Unpvol1.Springsnail.Used

/-!
# Springsnail.Conserve

Are the connections the constructor made conserved?

`pool` is the machine of `pick_conn`, `free_conn` and `recycle_conns` on one manager, called as
`run_child` and `process` call them: `pick_conn` with a descriptor just accepted and followed by
`init_clt`, `free_conn` on a bound connection.

* `conserved_iff` — in every run the connections are partitioned between `m_conns`, `m_used` and
  `m_freed` at every state just when no reconnect of any `recycle_conns` fails: the loop drops the
  entries it could not reconnect, because `m_freed` is cleared as a whole.
* `lost` — a run after which the only connection is in no map.
-/

namespace Unpvol1
namespace Springsnail
namespace Mgr

inductive PoolOp where
  | pick (connfd : Int)
  | free (c : Nat)
  | recycle (reconnects : List (Option Int))

def pool : Machine Mgr PoolOp where
  step m
    | .pick connfd => (m.takeClient connfd).2
    | .free c => m.freeConn c
    | .recycle os => m.recycleConns os
  ok m
    | .pick connfd => m.ker.Fresh connfd
    | .free c => m.Bound c
    | .recycle os => m.ReconnectsOk os

instance (m : Mgr) (c : Nat) : Decidable (m.Bound c) := by
  unfold Bound; infer_instance

instance (m : Mgr) : (o : PoolOp) → Decidable (pool.ok m o)
  | .pick connfd => inferInstanceAs (Decidable (m.ker.Fresh connfd))
  | .free c => inferInstanceAs (Decidable (m.Bound c))
  | .recycle os => inferInstanceAs (Decidable (m.ReconnectsOk os))

/-- `c` is in `m_used`. -/
def InUse (m : Mgr) (c : Nat) : Prop := ∃ fd : Int, m.used[fd]? = some (some c)

/-- `c` is in `m_freed`. -/
def Spare (m : Mgr) (c : Nat) : Prop := ∃ fd : Int, m.freed[fd]? = some c

/-- Every connection made is in one of the three maps, in no other, and there under one key, or in
`m_used` under its two descriptors; so the sizes of the maps add up to the number of connections
made. -/
structure Partitioned (m : Mgr) : Prop where
  somewhere : ∀ c, c < m.created ↔ m.Idle c ∨ m.InUse c ∨ m.Spare c
  idle_used : ∀ c, m.Idle c → ¬ m.InUse c
  idle_spare : ∀ c, m.Idle c → ¬ m.Spare c
  used_spare : ∀ c, m.InUse c → ¬ m.Spare c
  idle_once : ∀ c (fd fd' : Int), m.conns[fd]? = some (some c) → m.conns[fd']? = some (some c) →
    fd = fd'
  spare_once : ∀ c (fd fd' : Int), m.freed[fd]? = some c → m.freed[fd']? = some c → fd = fd'
  used_exact : m.UsedExact
  count : 2 * m.conns.size + m.used.size + 2 * m.freed.size = 2 * m.created

/-- What is at stake: no connection is in no map. -/
structure Covered (m : Mgr) : Prop where
  somewhere : ∀ c, c < m.created → m.Idle c ∨ m.Bound c ∨ m.Spare c
  count : 2 * m.conns.size + m.used.size + 2 * m.freed.size = 2 * m.created

section

variable {m m' : Mgr} {c : Nat}

theorem UsedExact.inUse_iff (h : m.UsedExact) : m.InUse c ↔ m.Bound c := by
  constructor
  · rintro ⟨fd, hfd⟩
    obtain ⟨d, hd, hb, -⟩ := (h fd _).mp hfd
    cases hd
    exact hb
  · intro hb
    exact ⟨(m.heap c).cltfd, (h _ _).mpr ⟨c, rfl, hb, .inl rfl⟩⟩

/-- The tables already keep the maps apart, so only coverage is at stake. -/
theorem partitioned_iff (hi : m.Inv) (hu : m.UsedExact) : m.Partitioned ↔ m.Covered := by
  have ht := hi.tables
  constructor
  · intro h
    refine ⟨fun c hc => ?_, h.count⟩
    rcases (h.somewhere c).mp hc with h | h | h
    · exact .inl h
    · exact .inr (.inl (hu.inUse_iff.mp h))
    · exact .inr (.inr h)
  · intro h
    refine ⟨fun c => ⟨fun hc => ?_, ?_⟩, ?_, ?_, ?_, ?_, ?_, hu, h.count⟩
    · rcases h.somewhere c hc with h | h | h
      · exact .inl h
      · exact .inr (.inl (hu.inUse_iff.mpr h))
      · exact .inr (.inr h)
    · rintro (⟨fd, hfd⟩ | h | ⟨fd, hfd⟩)
      · exact (ht.idle_conn hfd).1
      · exact (hu.inUse_iff.mp h).1
      · exact (ht.freed fd c hfd).1
    · intro c hc hused
      exact ht.not_bound_of_idle hc (hu.inUse_iff.mp hused)
    · rintro c hc ⟨fd, hfd⟩
      exact (ht.freed fd c hfd).2.2.2.1 hc
    · rintro c hused ⟨fd, hfd⟩
      exact (hu.inUse_iff.mp hused).2 (ht.freed fd c hfd).2.1
    · intro c fd fd' h1 h2
      exact (ht.idle_conn h1).2.2.symm.trans (ht.idle_conn h2).2.2
    · intro c fd fd' h1 h2
      exact (ht.freed fd c h1).2.2.1.symm.trans (ht.freed fd' c h2).2.2.1

/-! ## The three operations -/

theorem bindClient_covered {srvfd connfd : Int} (hi : m.Inv) (hu : m.UsedExact)
    (hc : m.conns[srvfd]? = some (some c)) (hf : m.ker.Fresh connfd) (h : m.Covered) :
    (m.bindClient c srvfd connfd).Covered := by
  have hlt := (hi.tables.idle_conn hc).1
  obtain ⟨hconn, hsrv⟩ := hu.bind_none hi hc hf
  constructor
  · intro d hd
    by_cases hne : d = c
    · exact .inr (.inl ((bindClient_bound hlt hf.1).mpr (.inl hne)))
    · rcases h.somewhere d hd with ⟨fd, hfd⟩ | hb | hs
      · have hfdne : fd ≠ srvfd := by
          rintro rfl
          rw [hc] at hfd
          cases hfd
          exact hne rfl
        exact .inl ⟨fd, (StdMap.erase_get_of_ne _ hfdne).trans hfd⟩
      · exact .inr (.inl ((bindClient_bound hlt hf.1).mpr (.inr hb)))
      · exact .inr (.inr hs)
  · have hcount := h.count
    have hconns : (m.conns.erase srvfd).size + 1 = m.conns.size := StdMap.size_erase_of_some hc
    have h1 := StdMap.size_insert (some c) hconn
    have h2 := StdMap.size_insert (some c) hsrv
    show 2 * (m.conns.erase srvfd).size +
      ((m.used.insertIfNew connfd (some c)).insertIfNew srvfd (some c)).size + 2 * m.freed.size =
        2 * m.created
    rw [h2, h1]
    omega

theorem freeConn_covered (hi : m.Inv) (hu : m.UsedExact) (hb : m.Bound c) (h : m.Covered) :
    (m.freeConn c).Covered := by
  have hne := hi.tables.sides c hb
  -- the server descriptor of a bound connection is no key of `m_freed`, so the insert inserts
  have hnone : m.freed[(m.heap c).srvfd]? = none := by
    cases hv : m.freed[(m.heap c).srvfd]? with
    | none => rfl
    | some d => exact absurd ⟨c, .inl hb, rfl⟩ (hi.tables.freed _ d hv).2.2.2.2
  constructor
  · intro d hd
    by_cases hdc : d = c
    · subst hdc
      exact .inr (.inr ⟨(m.heap d).srvfd, StdMap.insert_get_self _ hnone⟩)
    · rcases h.somewhere d hd with hid | hbd | ⟨fd, hfd⟩
      · exact .inl hid
      · exact .inr (.inl (freeConn_bound.mpr ⟨hdc, hbd⟩))
      · have hfdne : fd ≠ (m.heap c).srvfd := by
          rintro rfl
          rw [hnone] at hfd
          cases hfd
        exact .inr (.inr ⟨fd, (StdMap.insert_get_of_ne _ _ hfdne).trans hfd⟩)
  · have hcount := h.count
    have hclt : m.used[(m.heap c).cltfd]? = some (some c) := (hu _ _).mpr ⟨c, rfl, hb, .inl rfl⟩
    have hsrv : m.used[(m.heap c).srvfd]? = some (some c) := (hu _ _).mpr ⟨c, rfl, hb, .inr rfl⟩
    have hsrv' : (m.used.erase (m.heap c).cltfd)[(m.heap c).srvfd]? = some (some c) := by
      rw [StdMap.erase_get_of_ne _ hne.symm, hsrv]
    have h1 := StdMap.size_erase_of_some hclt
    have h2 := StdMap.size_erase_of_some hsrv'
    have h3 : (m.freed.insertIfNew (m.heap c).srvfd c).size = m.freed.size + 1 :=
      StdMap.size_insert _ hnone
    show 2 * m.conns.size + ((m.used.erase (m.heap c).cltfd).erase (m.heap c).srvfd).size +
      2 * (m.freed.insertIfNew (m.heap c).srvfd c).size = 2 * m.created
    rw [h3]
    omega

/-- A `recycle_conns` covers every connection again just when no reconnect failed. -/
theorem recycleConns_covered {os : List (Option Int)} (hi : m.Inv) (hos : m.ReconnectsOk os)
    (h : m.Covered) : (m.recycleConns os).Covered ↔ none ∉ os := by
  have hrec := recycleConns_spec hi hos
  have hempty := recycleConns_freed os m
  have hlen : m.freed.toList.length = os.length := by
    rw [Std.TreeMap.length_toList, hos.1]
  have hspare : ∀ d, ¬ (m.recycleConns os).Spare d := by
    rintro d ⟨fd, hfd⟩
    exact absurd (StdMap.mem_of_get hfd) (Std.TreeMap.not_mem_of_isEmpty hempty)
  have hsize : (m.recycleConns os).conns.size = m.conns.size + os.countP Option.isSome := by
    rw [hrec.size, hlen, List.take_length]
  have hfreed : (m.recycleConns os).freed.size = 0 := by
    rw [Std.TreeMap.isEmpty_eq_size_eq_zero] at hempty
    simpa using hempty
  constructor
  · -- a failed reconnect is missing from the count
    intro hcov hnone
    have hcount := hcov.count
    rw [hsize, hfreed, hrec.keeps.used, hrec.created] at hcount
    have hall : os.countP Option.isSome = os.length := by
      have := h.count
      have := hos.1
      omega
    have hsome := List.countP_eq_length.mp hall none hnone
    cases hsome
  · intro hnone
    have hsome : ∀ o ∈ os, ∃ fd, o = some fd := by
      intro o ho
      cases o with
      | none => exact absurd ho hnone
      | some fd => exact ⟨fd, rfl⟩
    constructor
    · intro d hd
      rw [hrec.created] at hd
      rcases h.somewhere d hd with hid | hb | ⟨fd, hfd⟩
      · exact .inl ((hrec.idle d).mpr (.inl hid))
      · exact .inr (.inl ((hrec.keeps.bound d).mpr hb))
      · obtain ⟨i, hi', hget⟩ := List.getElem_of_mem (StdMap.mem_toList.mpr hfd)
        have hio : i < os.length := by omega
        obtain ⟨fd', ho⟩ := hsome os[i] (List.getElem_mem hio)
        refine .inl ((hrec.idle d).mpr (.inr ⟨fd', ?_⟩))
        have hzip : i < ((m.freed.toList.map Prod.snd).zip os).length := by
          rw [List.length_zip, List.length_map]
          omega
        have hentry : ((m.freed.toList.map Prod.snd).zip os)[i] = (d, some fd') := by
          rw [List.getElem_zip, List.getElem_map, hget, ho]
        rw [← hentry]
        exact List.getElem_mem hzip
    · have hall : os.countP Option.isSome = os.length := by
        refine List.countP_eq_length.mpr fun o ho => ?_
        obtain ⟨fd, rfl⟩ := hsome o ho
        rfl
      have hcount := h.count
      have hlen := hos.1
      rw [hsize, hfreed, hrec.keeps.used, hrec.created, hall]
      omega

end

/-! ## Runs -/

/-- What every step keeps, whatever becomes of the reconnects. -/
structure PoolInv (m : Mgr) : Prop where
  inv : m.Inv
  used : m.UsedExact

/-- The step is not a `recycle_conns` with a reconnect that fails. -/
def NoneFails : PoolOp → Prop
  | .recycle os => none ∉ os
  | .pick _ => True
  | .free _ => True

instance : (o : PoolOp) → Decidable (NoneFails o)
  | .recycle os => inferInstanceAs (Decidable (none ∉ os))
  | .pick _ => inferInstanceAs (Decidable True)
  | .free _ => inferInstanceAs (Decidable True)

theorem pool_step_inv (m : Mgr) (o : PoolOp) (h : m.PoolInv) (hok : pool.ok m o) :
    (pool.step m o).PoolInv := by
  obtain ⟨hi, hu⟩ := h
  cases o with
  | pick connfd =>
    show (m.takeClient connfd).2.PoolInv
    rcases takeClient_cases hi.tables connfd with ⟨-, ht⟩ | ⟨srvfd, c, hc, ht⟩
    · rw [ht]
      exact ⟨rejectClient_inv hi hok, hu.keeps (rejectClient_keeps hi.tables hok)⟩
    · rw [ht]
      exact ⟨bindClient_inv hi hc hok, hu.bindClient hi hc hok⟩
  | free c => exact ⟨freeConn_inv hi hok, hu.freeConn hi.tables hok⟩
  | recycle os =>
    have hrec := recycleConns_spec hi hok
    exact ⟨hrec.inv, hu.keeps hrec.keeps⟩

theorem pool_step_partitioned (m : Mgr) (o : PoolOp) (h : m.PoolInv) (hok : pool.ok m o)
    (hp : m.Partitioned) : (pool.step m o).Partitioned ↔ NoneFails o := by
  have h' := pool_step_inv m o h hok
  obtain ⟨hi, hu⟩ := h
  rw [partitioned_iff h'.inv h'.used]
  rw [partitioned_iff hi hu] at hp
  cases o with
  | pick connfd =>
    refine ⟨fun _ => trivial, fun _ => ?_⟩
    show (m.takeClient connfd).2.Covered
    rcases takeClient_cases hi.tables connfd with ⟨-, ht⟩ | ⟨srvfd, c, hc, ht⟩
    · rw [ht]
      exact ⟨hp.somewhere, hp.count⟩
    · rw [ht]
      exact bindClient_covered hi hu hc hok hp
  | free c => exact ⟨fun _ => trivial, fun _ => freeConn_covered hi hu hok hp⟩
  | recycle os => exact recycleConns_covered hi hok hp

theorem buildConn_covered {m : Mgr} {o : BuildOutcome} (hb : m.Building) (h : m.Covered)
    (hok : builder.ok m o) : (m.buildConn o).Covered := by
  cases o with
  | refused => exact h
  | noMemory fd => exact ⟨h.somewhere, h.count⟩
  | built fd =>
    have hf : m.ker.Fresh fd := hok
    have hnone := hb.inv.tables.conns_fresh hf
    constructor
    · intro c hc
      have hc' : c < m.created + 1 := hc
      by_cases hnew : c = m.created
      · subst hnew
        exact .inl ⟨fd, StdMap.insert_get_self _ hnone⟩
      · rcases h.somewhere c (by omega) with ⟨e, he⟩ | hbd | hs
        · have hne : e ≠ fd := by
            rintro rfl
            rw [hnone] at he
            cases he
          exact .inl ⟨e, (StdMap.insert_get_of_ne _ _ hne).trans he⟩
        · exact absurd (hb.blank c) hbd.2
        · exact .inr (.inr hs)
    · have hcount := h.count
      have hsize : (m.conns.insertIfNew fd (some m.created)).size = m.conns.size + 1 :=
        StdMap.size_insert _ hnone
      show 2 * (m.conns.insertIfNew fd (some m.created)).size + m.used.size + 2 * m.freed.size =
        2 * (m.created + 1)
      rw [hsize]
      omega

/-- The constructor files every connection it makes. -/
theorem create_partitioned {k : Kernel Interest} {os : List BuildOutcome}
    (hv : builder.Valid (empty k) os) : (create k os).Partitioned := by
  have hstep : ∀ m o, m.Building ∧ m.Covered → builder.ok m o →
      (m.buildConn o).Building ∧ (m.buildConn o).Covered := by
    rintro m o ⟨hb, hc⟩ hok
    exact ⟨buildConn_building hb hok, buildConn_covered hb hc hok⟩
  have hempty : (empty k).Covered := by
    refine ⟨fun c hc => absurd hc (Nat.not_lt_zero c), ?_⟩
    simp [empty]
  obtain ⟨hb, hc⟩ := Machine.run_inv (I := fun m : Mgr => m.Building ∧ m.Covered) hstep
    ⟨empty_building k, hempty⟩ hv
  exact (partitioned_iff hb.inv hb.usedExact).mpr hc

/-- **Conservation of connections**: in every run the maps partition the connections at every state
just when no reconnect fails. -/
theorem conserved_iff (k : Kernel Interest) (os : List BuildOutcome) (ops : List PoolOp)
    (hv : builder.Valid (empty k) os) (hr : pool.Valid (create k os) ops) :
    pool.Always Partitioned (create k os) ops ↔
      pool.Each (fun _ o => NoneFails o) (create k os) ops :=
  Machine.always_iff_each pool_step_inv pool_step_partitioned
    ⟨create_inv hv, (create_building hv).usedExact⟩ (create_partitioned hv) hr

/-- Two connections serve three clients, and both come back. -/
theorem conserved_three_clients :
    pool.Always Partitioned (create kernel34 [.built 5, .built 6])
      [.pick 7, .pick 8, .pick 9, .free 0, .free 1, .recycle [some 6, some 5], .pick 7] :=
  (conserved_iff kernel34 [.built 5, .built 6] _ (by decide +kernel) (by decide +kernel)).mpr
    (by decide +kernel)

/-- The only connection is freed and its reconnect fails: all three maps are empty. -/
theorem lost :
    builder.Valid (empty kernel34) [.built 5] ∧
      pool.Valid (create kernel34 [.built 5]) [.pick 7, .free 0, .recycle [none]] ∧
      (let m := pool.run (create kernel34 [.built 5]) [.pick 7, .free 0, .recycle [none]]
      m.created = 1 ∧ m.conns.size = 0 ∧ m.used.size = 0 ∧ m.freed.size = 0 ∧
        ¬ m.Partitioned) := by
  refine ⟨by decide +kernel, by decide +kernel, ?_⟩
  intro m
  have hcreated : m.created = 1 := by decide +kernel
  have hconns : m.conns.size = 0 := by decide +kernel
  have hused : m.used.size = 0 := by decide +kernel
  have hfreed : m.freed.size = 0 := by decide +kernel
  refine ⟨hcreated, hconns, hused, hfreed, fun h => ?_⟩
  have hcount := h.count
  omega

end Mgr
end Springsnail
end Unpvol1
