import Unpvol1.Springsnail.MgrPool

/-!
# Springsnail.Used

Does `m_used` hold exactly the descriptors of the bound connections?

`process` looks a descriptor up with `m_used[ fd ]`, which inserts NULL when the descriptor belongs
to no bound connection, as a descriptor closed earlier in the same batch does. The NULL stays, and
when the number comes back from `accept`, `pick_conn`'s `insert` does not overwrite it.

* `used_exact_iff` — in every run of the event loop `m_used` is exact at every state just when every
  descriptor handed to `process` belongs to a connection bound at that moment.
* `used_not_exact` — a run in which it is not, and a bound connection's descriptor looks up to NULL.
-/

namespace Unpvol1
namespace Springsnail
namespace Mgr

/-- `fd` is one of the two descriptors of `c`. -/
def HasFd (m : Mgr) (c : Nat) (fd : Int) : Prop := (m.heap c).cltfd = fd ∨ (m.heap c).srvfd = fd

/-- `m_used` maps the descriptors of each bound connection to it, and nothing else to anything. -/
def UsedExact (m : Mgr) : Prop :=
  ∀ (fd : Int) v, m.used[fd]? = some v ↔ ∃ c, v = some c ∧ m.Bound c ∧ m.HasFd c fd

/-- `fd` belongs to a bound connection. -/
def LiveFd (m : Mgr) (fd : Int) : Prop := ∃ c, m.Bound c ∧ m.HasFd c fd

section

variable {m m' : Mgr} {c : Nat} {fd : Int}

theorem HasFd.owns (h : m.HasFd c fd) (hb : m.Bound c) : m.Owns c fd :=
  h.elim (fun e => .inl ⟨hb, e⟩) fun e => .inr ⟨.inl hb, e⟩

theorem UsedExact.get_none (h : m.UsedExact) (hfd : ¬ m.LiveFd fd) : m.used[fd]? = none := by
  cases hv : m.used[fd]? with
  | none => rfl
  | some v =>
    obtain ⟨c, -, hb, hc⟩ := (h fd v).mp hv
    exact absurd ⟨c, hb, hc⟩ hfd

/-- A step the bound connections do not notice keeps the table exact. -/
theorem UsedExact.keeps (h : m.UsedExact) (hk : Keeps m m') : m'.UsedExact := by
  intro fd v
  rw [hk.used, h]
  constructor
  · rintro ⟨c, rfl, hb, hc⟩
    exact ⟨c, rfl, (hk.bound c).mpr hb, by rwa [HasFd, hk.heap c hb]⟩
  · rintro ⟨c, rfl, hb, hc⟩
    have hb' := (hk.bound c).mp hb
    exact ⟨c, rfl, hb', by rwa [HasFd, hk.heap c hb'] at hc⟩

theorem UsedExact.touches (h : m.UsedExact) (ht : Touches m m' c) : m'.UsedExact := by
  intro fd v
  rw [ht.used, h]
  simp only [ht.bound_iff, HasFd, ht.cltfd, ht.srvfd]

/-- `free_conn` takes out the two entries of its connection. -/
theorem UsedExact.freeConn (h : m.UsedExact) (ht : m.Tables) (hb : m.Bound c) :
    (m.freeConn c).UsedExact := by
  intro fd v
  have hgone : ∀ {d}, d ≠ c → m.Bound d → m.HasFd d fd →
      fd ≠ (m.heap c).cltfd ∧ fd ≠ (m.heap c).srvfd := by
    intro d hd hbd hfd
    exact ⟨ht.fd_ne (owns_clt hb) (hfd.owns hbd) hd, ht.fd_ne (owns_srv hb) (hfd.owns hbd) hd⟩
  constructor
  · intro hv
    rw [freeConn_used] at hv
    obtain ⟨hsrv, hv⟩ := StdMap.get_of_erase_get hv
    obtain ⟨hclt, hv⟩ := StdMap.get_of_erase_get hv
    obtain ⟨d, rfl, hbd, hfd⟩ := (h fd v).mp hv
    have hd : d ≠ c := by
      rintro rfl
      exact hfd.elim (fun e => hclt e.symm) fun e => hsrv e.symm
    exact ⟨d, rfl, freeConn_bound.mpr ⟨hd, hbd⟩, by rwa [HasFd, freeConn_heap_of_ne hd]⟩
  · rintro ⟨d, rfl, hbd, hfd⟩
    obtain ⟨hd, hbd⟩ := freeConn_bound.mp hbd
    rw [HasFd, freeConn_heap_of_ne hd] at hfd
    obtain ⟨hclt, hsrv⟩ := hgone hd hbd hfd
    rw [freeConn_used, StdMap.erase_get_of_ne _ hsrv, StdMap.erase_get_of_ne _ hclt]
    exact (h fd _).mpr ⟨d, rfl, hbd, hfd⟩

/-- Neither descriptor `pick_conn` files under has an entry already. -/
theorem UsedExact.bind_none {srvfd connfd : Int} (h : m.UsedExact) (hi : m.Inv)
    (hc : m.conns[srvfd]? = some (some c)) (hf : m.ker.Fresh connfd) :
    m.used[connfd]? = none ∧ (m.used.insertIfNew connfd (some c))[srvfd]? = none := by
  have ht := hi.tables
  have hci : m.Idle c := ⟨srvfd, hc⟩
  have hsrvown : m.Owns c srvfd := (ht.idle_conn hc).2.2 ▸ owns_idle hci
  have hconn : m.used[connfd]? = none := h.get_none fun ⟨d, hb, hd⟩ =>
    absurd rfl (ht.fresh_ne (hd.owns hb) hf)
  have hsrvnone : m.used[srvfd]? = none := h.get_none fun ⟨d, hb, hd⟩ =>
    ht.not_bound_of_idle hci (ht.owner d c srvfd (hd.owns hb) hsrvown ▸ hb)
  exact ⟨hconn, by rw [StdMap.insert_get_of_ne _ _ (ht.fresh_ne hsrvown hf), hsrvnone]⟩

/-- `pick_conn` adds the two entries of its connection. -/
theorem UsedExact.bindClient {srvfd connfd : Int} (h : m.UsedExact) (hi : m.Inv)
    (hc : m.conns[srvfd]? = some (some c)) (hf : m.ker.Fresh connfd) :
    (m.bindClient c srvfd connfd).UsedExact := by
  have ht := hi.tables
  have hci : m.Idle c := ⟨srvfd, hc⟩
  obtain ⟨hlt, -, hsrv⟩ := ht.idle_conn hc
  have hnb : ¬ m.Bound c := ht.not_bound_of_idle hci
  have hsrvown : m.Owns c srvfd := hsrv ▸ owns_idle hci
  obtain ⟨hconn, hsrvnone⟩ := h.bind_none hi hc hf
  have hused : ∀ fd : Int, (m.bindClient c srvfd connfd).used[fd]? =
      if fd = srvfd ∨ fd = connfd then some (some c) else m.used[fd]? := by
    intro fd
    show ((m.used.insertIfNew connfd (some c)).insertIfNew srvfd (some c))[fd]? = _
    by_cases h1 : fd = srvfd
    · subst h1
      rw [StdMap.insert_get_self _ hsrvnone, if_pos (.inl rfl)]
    · rw [StdMap.insert_get_of_ne _ _ h1]
      by_cases h2 : fd = connfd
      · subst h2
        rw [StdMap.insert_get_self _ hconn, if_pos (.inr rfl)]
      · rw [StdMap.insert_get_of_ne _ _ h2, if_neg (by simp [h1, h2])]
  intro fd v
  have hfdc : (m.bindClient c srvfd connfd).HasFd c fd ↔ fd = srvfd ∨ fd = connfd := by
    rw [HasFd, bindClient_srvfd, bindClient_heap_self, hsrv]
    simp only [Conn.initClt]
    constructor
    · rintro (e | e)
      · exact .inr e.symm
      · exact .inl e.symm
    · rintro (e | e)
      · exact .inr e.symm
      · exact .inl e.symm
  rw [hused]
  constructor
  · intro hv
    split at hv
    · rename_i hfd
      exact ⟨c, (Option.some.inj hv).symm, (bindClient_bound hlt hf.1).mpr (.inl rfl), hfdc.mpr hfd⟩
    · obtain ⟨d, rfl, hb, hd⟩ := (h fd v).mp hv
      have hdc : d ≠ c := fun e => hnb (e ▸ hb)
      exact ⟨d, rfl, (bindClient_bound hlt hf.1).mpr (.inr hb), by
        rwa [HasFd, bindClient_heap_of_ne hdc]⟩
  · rintro ⟨d, rfl, hb, hd⟩
    by_cases hdc : d = c
    · subst hdc
      rw [if_pos (hfdc.mp hd)]
    · have hb' := ((bindClient_bound hlt hf.1).mp hb).resolve_left hdc
      have hd' : m.HasFd d fd := by rwa [HasFd, bindClient_heap_of_ne hdc] at hd
      have h1 : fd ≠ srvfd := ht.fd_ne hsrvown (hd'.owns hb') hdc
      have h2 : fd ≠ connfd := ht.fresh_ne (hd'.owns hb') hf
      rw [if_neg (by simp [h1, h2])]
      exact (h fd _).mpr ⟨d, rfl, hb', hd'⟩

/-- `process` keeps the table exact just when the descriptor belongs to a bound connection. -/
theorem process_usedExact (h : m.UsedExact) (hi : m.Inv) (fd : Int) (type : OpType) (io : Io) :
    (m.process fd type io).2.UsedExact ↔ m.LiveFd fd := by
  rcases process_cases hi fd type io with ⟨hnone, hp⟩ | ⟨c, hused, hb, m', ht, hs, hp⟩
  · have hdead : ¬ m.LiveFd fd := fun ⟨c, hb, hc⟩ => hnone c ((h fd _).mpr ⟨c, rfl, hb, hc⟩)
    have hget := h.get_none hdead
    rw [hp]
    refine ⟨fun hex => ?_, fun hlive => absurd hlive hdead⟩
    have hnull : (m.usedAt fd).2.used[fd]? = some none := StdMap.insert_get_self _ hget
    obtain ⟨c, hc, -⟩ := (hex fd none).mp hnull
    cases hc
  · obtain ⟨c', hc, -, hfd⟩ := (h fd _).mp hused
    cases hc
    refine ⟨fun _ => ⟨c, hb, hfd⟩, fun _ => ?_⟩
    have hm' := h.touches ht
    rcases hp with hp | hp
    · rw [hp]; exact hm'
    · rw [hp]; exact hm'.freeConn (ht.tables hi.tables) ((ht.bound_iff c).mpr hb)

theorem Building.usedExact (h : m.Building) : m.UsedExact := by
  intro fd v
  constructor
  · intro hv
    rw [h.used] at hv
    simp at hv
  · rintro ⟨c, -, hb, -⟩
    exact absurd (h.blank c) hb.2

end
end Mgr

/-- The step hands `process` no descriptor but one of a bound connection. -/
def HandsLive (p : Pipes) (s : Child) (i : Input) : Prop :=
  ∀ fd type io, s.hands p i = some (fd, type, io) → s.mgr.LiveFd fd

theorem child_step_usedExact (p : Pipes) (s : Child) (i : Input) (hi : s.mgr.Inv)
    (hok : (child p).ok s i) (h : s.mgr.UsedExact) :
    ((child p).step s i).mgr.UsedExact ↔ HandsLive p s i := by
  rw [child_step_iff hi hok (P := Mgr.UsedExact) (Q := fun h => s.mgr.LiveFd h.1)
    (fun fd type io _ => Mgr.process_usedExact h hi fd type io)
    (fun _ _ _ hc hf => h.bindClient hi hc hf) (fun _ hk => h.keeps hk)]
  constructor
  · intro hall fd type io hh
    exact hall (fd, type, io) hh
  · intro hlive hh hmem
    exact hlive hh.1 hh.2.1 hh.2.2 hmem

/-- In every run of a child, `m_used` is exact at every state just when each descriptor handed to
`process` belonged to a connection that was bound at that moment. -/
theorem used_exact_iff (p : Pipes) (k : Kernel Interest) (os : List Mgr.BuildOutcome)
    (is : List Input) (hv : Mgr.builder.Valid (Mgr.empty k) os)
    (hr : (child p).Valid (Child.start (Mgr.create k os)) is) :
    (child p).Always (fun s => s.mgr.UsedExact) (Child.start (Mgr.create k os)) is ↔
      (child p).Each (HandsLive p) (Child.start (Mgr.create k os)) is :=
  Machine.always_iff_each (fun s i hi hok => child_step_inv p s i hi hok)
    (fun s i hi hok h => child_step_usedExact p s i hi hok h) (Mgr.create_inv hv)
    (Mgr.create_building hv).usedExact hr

/-! ## A stale event -/

/-- Two connections to the server, 5 and 6; the first client, 7, closes in the same batch in which
its server connection 5 becomes readable, and the next client gets descriptor 5. -/
def staleRun : List Input :=
  [.wait (.ready [announced]), .next (accepting 7),
    .wait (.ready [readable 7, readable 5]), .next (transferring [.data []] []),
    .next (transferring [] []), .wait (.ready [announced]), .next (accepting 5)]

/-- The second client is bound, but its descriptor looks up to NULL. -/
theorem used_not_exact :
    Mgr.builder.Valid (Mgr.empty kernel34) [.built 5, .built 6] ∧
      (child pipes34).Valid (Child.start (Mgr.create kernel34 [.built 5, .built 6])) staleRun ∧
      (let m := ((child pipes34).run (Child.start (Mgr.create kernel34 [.built 5, .built 6]))
        staleRun).mgr
      m.Bound 1 ∧ m.HasFd 1 5 ∧ m.used[(5 : Int)]? = some none ∧ ¬ m.UsedExact) := by
  refine ⟨by decide +kernel, by decide +kernel, ?_⟩
  intro m
  have hnull : m.used[(5 : Int)]? = some none := by decide +kernel
  refine ⟨⟨by decide +kernel, by decide +kernel⟩, .inl (by decide +kernel), hnull, fun h => ?_⟩
  obtain ⟨c, hc, -⟩ := (h 5 none).mp hnull
  cases hc

/-- The run up to the batch with the stale event keeps the table exact. -/
theorem used_exact_first_client :
    (child pipes34).Always (fun s => s.mgr.UsedExact)
      (Child.start (Mgr.create kernel34 [.built 5, .built 6])) (staleRun.take 4) := by
  refine (used_exact_iff pipes34 kernel34 [.built 5, .built 6] (staleRun.take 4)
    (by decide +kernel) (by decide +kernel)).mpr ?_
  refine ⟨?_, ?_, ?_, ?_, trivial⟩
  · intro fd type io h
    cases h
  · intro fd type io h
    cases h
  · intro fd type io h
    cases h
  · intro fd type io h
    have hfd : fd = 7 := by cases h; rfl
    subst hfd
    exact ⟨0, ⟨by decide +kernel, by decide +kernel⟩, .inl (by decide +kernel)⟩

end Springsnail
end Unpvol1
