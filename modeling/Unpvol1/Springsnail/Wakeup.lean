import Unpvol1.Springsnail.ConnCodes
import Unpvol1.Springsnail.Used

/-!
# Springsnail.Wakeup

Is buffered data always waited for? A bound connection is `Awake` when a descriptor that has unsent
bytes to take is registered for `EPOLLOUT`.

* `awake_iff_each` — in every run, every bound connection is awake after every event just when no
  write event empties its own buffer while the opposite one still holds unsent bytes
  (`WriteClears`): that branch of `process` sets both descriptors back to `EPOLLIN`.
* `awake_at_wait` — in particular such runs return to `epoll_wait` with every connection awake.
* `asleep_at_wait` — a run that returns to `epoll_wait` with data nobody waits to send.
-/

namespace Unpvol1
namespace Springsnail
namespace Mgr

/-- `fd` is registered for `EPOLLOUT`. -/
def WaitsOut (m : Mgr) (fd : Int) : Prop := ∃ i ∈ m.ker.interest fd, i.output = true

structure Awake (m : Mgr) (c : Nat) : Prop where
  clt : (m.heap c).srvWriteIdx < (m.heap c).srvReadIdx → m.WaitsOut (m.heap c).cltfd
  srv : (m.heap c).cltWriteIdx < (m.heap c).cltReadIdx → (m.heap c).srvClosed = false →
    m.WaitsOut (m.heap c).srvfd

def AllAwake (m : Mgr) : Prop := ∀ c, m.Bound c → m.Awake c

/-- A client write that empties `m_srv_buf` finds the server side closed or `m_clt_buf` empty. -/
def CltWriteClears (conn : Conn) (io : Io) : Prop :=
  Drains io.sends (conn.srvReadIdx - conn.srvWriteIdx) = true →
    conn.srvClosed = true ∨ conn.cltReadIdx ≤ conn.cltWriteIdx

/-- A server write that empties `m_clt_buf` finds `m_srv_buf` empty. -/
def SrvWriteClears (conn : Conn) (io : Io) : Prop :=
  Drains io.sends (conn.cltReadIdx - conn.cltWriteIdx) = true → conn.srvReadIdx ≤ conn.srvWriteIdx

/-- A write on descriptor `fd` of `conn` does not empty one buffer while the other holds data. -/
def ConnWriteClears (conn : Conn) (fd : Int) (io : Io) : Prop :=
  if conn.cltfd = fd then CltWriteClears conn io else SrvWriteClears conn io

instance (conn : Conn) (fd : Int) (io : Io) : Decidable (ConnWriteClears conn fd io) := by
  unfold ConnWriteClears CltWriteClears SrvWriteClears; infer_instance

/-- A write event on `fd` clears what it should in the connection `m_used` has there. -/
def WriteClears (m : Mgr) (fd : Int) (io : Io) : Prop :=
  ∀ c ∈ (m.used[fd]?).join, ConnWriteClears (m.heap c) fd io

instance (m : Mgr) (fd : Int) (io : Io) : Decidable (m.WriteClears fd io) := by
  unfold WriteClears; infer_instance

theorem mem_used_join {m : Mgr} {c : Nat} {fd : Int} :
    c ∈ (m.used[fd]?).join ↔ m.used[fd]? = some (some c) := by
  rw [Option.mem_def, Option.join_eq_some_iff]

/-- What holds of every connection `m_used` has under a descriptor holds of the one it has. -/
theorem forall_mem_used {m : Mgr} {c : Nat} {fd : Int} {P : Nat → Prop}
    (h : m.used[fd]? = some (some c)) : (∀ d ∈ (m.used[fd]?).join, P d) ↔ P c := by
  constructor
  · intro hall
    exact hall c (mem_used_join.mpr h)
  · intro hc d hd
    rw [mem_used_join, h] at hd
    cases hd
    exact hc

/-! ## Registrations -/

section Waits

variable {m : Mgr} {c : Nat} {fd e : Int}

@[simp] theorem modfd_heap (fd : Int) (ev : Interest) : (m.modfd fd ev).heap = m.heap := rfl

theorem waitsOut_modfd_self (ev : Interest) (h : (m.ker.interest fd).isSome = true) :
    (m.modfd fd ev).WaitsOut fd ↔ ev.output = true := by
  simp [WaitsOut, modfd, Kernel.ctlMod_interest_self ev h]

theorem waitsOut_modfd_of_ne (ev : Interest) (h : e ≠ fd) :
    (m.modfd fd ev).WaitsOut e ↔ m.WaitsOut e := by
  simp [WaitsOut, modfd, Kernel.ctlMod_interest_of_ne _ ev h]

/-- After `modfd( m_epollfd, fd, EPOLLOUT )` anything that waited still waits. -/
theorem waitsOut_modfd_out (h : m.WaitsOut e) : (m.modfd fd epollout).WaitsOut e := by
  by_cases he : e = fd
  · subst he
    obtain ⟨i, hi, -⟩ := h
    have hreg : (m.ker.interest e).isSome = true := by
      rw [Option.mem_def.mp hi]; rfl
    exact (waitsOut_modfd_self epollout hreg).mpr rfl
  · exact (waitsOut_modfd_of_ne epollout he).mpr h

theorem Keeps.awake {m' : Mgr} (h : Keeps m m') (hb : m.Bound c) : m'.Awake c ↔ m.Awake c := by
  have hclt := h.interest c _ hb (owns_clt hb)
  have hsrv := h.interest c _ hb (owns_srv hb)
  constructor
  · rintro ⟨h1, h2⟩
    simp only [h.heap c hb, WaitsOut, hclt, hsrv] at h1 h2
    exact ⟨h1, h2⟩
  · rintro ⟨h1, h2⟩
    constructor
    · simpa only [h.heap c hb, WaitsOut, hclt] using h1
    · simpa only [h.heap c hb, WaitsOut, hsrv] using h2

end Waits

/-! ## One event -/

section Event

variable {m m' : Mgr} {c d : Nat} {fd : Int}

theorem Touches.awake_other (h : Touches m m' c) (ht : m.Tables) (hb : m.Bound c)
    (hd : m.Bound d) (hne : d ≠ c) (ha : m.Awake d) : m'.Awake d := by
  have hclt := (h.other ht hb (owns_clt hd) hne).1
  have hsrv := (h.other ht hb (owns_srv hd) hne).1
  constructor
  · simpa only [h.heap d hne, WaitsOut, hclt] using ha.clt
  · simpa only [h.heap d hne, WaitsOut, hsrv] using ha.srv

theorem freeConn_awake (ht : m.Tables) (hb : m.Bound c) (h : ∀ d, m.Bound d → d ≠ c → m.Awake d) :
    (m.freeConn c).AllAwake := by
  intro d hd
  obtain ⟨hne, hbd⟩ := freeConn_bound.mp hd
  have hclt := (freeConn_ker (ht.fd_ne (owns_clt hb) (owns_clt hbd) hne)
    (ht.fd_ne (owns_srv hb) (owns_clt hbd) hne)).2
  have hsrv := (freeConn_ker (ht.fd_ne (owns_clt hb) (owns_srv hbd) hne)
    (ht.fd_ne (owns_srv hb) (owns_srv hbd) hne)).2
  have ha := h d hbd hne
  constructor
  · simpa only [freeConn_heap_of_ne hne, WaitsOut, hclt] using ha.clt
  · simpa only [freeConn_heap_of_ne hne, WaitsOut, hsrv] using ha.srv

@[simp] theorem transferred_heap_self (r : RetCode × Conn × List Call) :
    (m.transferred c r).heap c = r.2.1 := by
  simp [transferred, setConn]

@[simp] theorem waitsOut_transferred (r : RetCode × Conn × List Call) (fd : Int) :
    (m.transferred c r).WaitsOut fd ↔ m.WaitsOut fd := Iff.rfl

@[simp] theorem waitsOut_markSrvClosed (fd : Int) :
    (m.markSrvClosed c).WaitsOut fd ↔ m.WaitsOut fd := Iff.rfl

/-- A connection whose server side was just marked closed has its client descriptor waiting. -/
theorem markSrvClosed_awake {r : RetCode × Conn × List Call}
    (hclt : r.2.1.cltfd = (m.heap c).cltfd) (hs : m.Served c) :
    (((m.transferred c r).modfd (m.heap c).cltfd epollout).markSrvClosed c).Awake c := by
  have hreg : ((m.transferred c r).ker.interest (m.heap c).cltfd).isSome = true := hs.cltReg
  constructor
  · intro _
    simp only [markSrvClosed, setConn, Function.update_self, modfd_heap, transferred_heap_self,
      hclt]
    exact (waitsOut_modfd_self epollout hreg).mpr rfl
  · intro _ hsc
    simp [markSrvClosed, setConn] at hsc

/-- A client read keeps its connection awake, if it keeps it at all. -/
theorem processClt_read_awake (fd : Int) (io : Io) (hs : m.Served c) (ha : m.Awake c) :
    (m.processClt fd .read io c).1 = .closed ∨
      ((m.processClt fd .read io c).1 = .ok ∧ (m.processClt fd .read io c).2.Awake c) := by
  have hreg : ((m.transferred c ((m.heap c).readClt io.recvs)).ker.interest
      (m.heap c).srvfd).isSome = true := hs.srvReg
  -- `BUFFER_FULL` and `OK` register the server descriptor, `NOTHING` leaves nothing to send
  have hout : ((m.transferred c ((m.heap c).readClt io.recvs)).modfd (m.heap c).srvfd
      epollout).Awake c := by
    constructor
    · intro hpend
      rw [modfd_heap, transferred_heap_self] at hpend ⊢
      exact waitsOut_modfd_out (ha.clt hpend)
    · intro _ _
      rw [modfd_heap, transferred_heap_self]
      exact (waitsOut_modfd_self epollout hreg).mpr rfl
  have hexit := readLoop_exit (m.heap c).cltfd (m.heap c).cltWriteIdx io.recvs (m.heap c).cltBuf
    (m.heap c).cltReadIdx
  have hcode : ((m.heap c).readClt io.recvs).1 = (readLoop (m.heap c).cltfd
    (m.heap c).cltWriteIdx io.recvs (m.heap c).cltBuf (m.heap c).cltReadIdx).code := rfl
  simp only [processClt]
  rw [hcode]
  rcases hexit with ⟨he, -, -⟩ | ⟨he, hle, -⟩ | ⟨he, -⟩ | ⟨he | he, -⟩
  · rw [he]
    simp only
    split
    · exact .inl rfl
    · exact .inr ⟨rfl, hout⟩
  · rw [he]
    simp only
    split
    · exact .inl rfl
    · refine .inr ⟨rfl, fun hpend => ?_, fun hpend => ?_⟩
      · rw [transferred_heap_self] at hpend ⊢
        exact ha.clt hpend
      · rw [transferred_heap_self] at hpend
        exact absurd hpend (Nat.not_lt.mpr hle)
  · rw [he]
    simp only
    split
    · exact .inl rfl
    · exact .inr ⟨rfl, hout⟩
  · rw [he]
    exact .inl rfl
  · rw [he]
    exact .inl rfl

/-- A client write keeps its connection awake just when it clears what it should. -/
theorem processClt_write_awake (io : Io) (hs : m.Served c) (hfd : (m.heap c).cltfd = fd)
    (hne : (m.heap c).cltfd ≠ (m.heap c).srvfd) (ha : m.Awake c) :
    ((m.processClt fd .write io c).1 = .closed ∧ CltWriteClears (m.heap c) io) ∨
      ((m.processClt fd .write io c).1 = .ok ∧
        ((m.processClt fd .write io c).2.Awake c ↔ CltWriteClears (m.heap c) io)) := by
  subst hfd
  have hexit := writeLoop_exit (m.heap c).cltfd (m.heap c).srvBuf io.sends (m.heap c).srvReadIdx
    (m.heap c).srvWriteIdx
  have hcode : ((m.heap c).writeClt io.sends).1 = (writeLoop (m.heap c).cltfd
    (m.heap c).srvBuf io.sends (m.heap c).srvReadIdx (m.heap c).srvWriteIdx).code := rfl
  have hclosed : ((m.heap c).writeClt io.sends).2.1.srvClosed = (m.heap c).srvClosed := rfl
  have hsreg : ((m.transferred c ((m.heap c).writeClt io.sends)).ker.interest
      (m.heap c).srvfd).isSome = true := hs.srvReg
  have hcreg : ((m.transferred c ((m.heap c).writeClt io.sends)).ker.interest
      (m.heap c).cltfd).isSome = true := hs.cltReg
  have hsrvfd : ((m.heap c).writeClt io.sends).2.1.srvfd = (m.heap c).srvfd := rfl
  simp only [processClt]
  rw [hcode]
  rcases hexit with ⟨he, hr, hw, hd, -⟩ | ⟨he, -, hd, -⟩ | ⟨he | he, hd, -⟩
  · rw [he]
    simp only [modfd_heap, transferred_heap_self, hclosed]
    split
    · rename_i hsc
      exact .inl ⟨rfl, fun _ => .inl hsc⟩
    · rename_i hsc
      refine .inr ⟨rfl, fun hawake _ => ?_, fun hclears => ⟨fun hpend => ?_, fun hpend _ => ?_⟩⟩
      · -- both descriptors wait for input only, so nothing may be pending for the server
        refine .inr (Nat.not_lt.mp fun hpend => ?_)
        have hwait := hawake.srv
        simp only [modfd_heap, transferred_heap_self] at hwait
        have hout := hwait hpend (by simpa [hclosed] using hsc)
        rw [hsrvfd, waitsOut_modfd_of_ne _ hne.symm, waitsOut_modfd_self _ hsreg] at hout
        cases hout
      · simp only [modfd_heap, transferred_heap_self] at hpend
        have h1 : ((m.heap c).writeClt io.sends).2.1.srvReadIdx = 0 := hr
        omega
      · simp only [modfd_heap, transferred_heap_self] at hpend
        rcases hclears hd with hsc' | hle
        · exact absurd hsc' hsc
        · exact absurd hpend (Nat.not_lt.mpr hle)
  · rw [he]
    have hclears : CltWriteClears (m.heap c) io := fun hd' => by rw [hd] at hd'; cases hd'
    simp only [modfd_heap, transferred_heap_self, hclosed]
    split
    · exact .inl ⟨rfl, hclears⟩
    · refine .inr ⟨rfl, fun _ => hclears, fun _ => ⟨fun _ => ?_, fun hpend hsc => ?_⟩⟩
      · simp only [modfd_heap, transferred_heap_self]
        exact (waitsOut_modfd_self epollout hcreg).mpr rfl
      · simp only [modfd_heap, transferred_heap_self] at hpend hsc ⊢
        exact waitsOut_modfd_out (ha.srv hpend hsc)
  · rw [he]
    exact .inl ⟨rfl, fun hd' => by rw [hd] at hd'; cases hd'⟩
  · rw [he]
    exact .inl ⟨rfl, fun hd' => by rw [hd] at hd'; cases hd'⟩

/-- A server read keeps its connection awake. -/
theorem processSrv_read_awake (fd : Int) (io : Io) (hs : m.Served c) (ha : m.Awake c) :
    (m.processSrv fd .read io c).2.Awake c := by
  have hexit := readLoop_exit (m.heap c).srvfd (m.heap c).srvWriteIdx io.recvs (m.heap c).srvBuf
    (m.heap c).srvReadIdx
  have hcode : ((m.heap c).readSrv io.recvs).1 = (readLoop (m.heap c).srvfd
    (m.heap c).srvWriteIdx io.recvs (m.heap c).srvBuf (m.heap c).srvReadIdx).code := rfl
  have hreg : ((m.transferred c ((m.heap c).readSrv io.recvs)).ker.interest
      (m.heap c).cltfd).isSome = true := hs.cltReg
  have hout : ((m.transferred c ((m.heap c).readSrv io.recvs)).modfd (m.heap c).cltfd
      epollout).Awake c := by
    constructor
    · intro _
      rw [modfd_heap, transferred_heap_self]
      exact (waitsOut_modfd_self epollout hreg).mpr rfl
    · intro hpend hsc
      rw [modfd_heap, transferred_heap_self] at hpend hsc ⊢
      exact waitsOut_modfd_out (ha.srv hpend hsc)
  have hmark := markSrvClosed_awake (r := (m.heap c).readSrv io.recvs) rfl hs
  simp only [processSrv]
  rw [hcode]
  rcases hexit with ⟨he, -, -⟩ | ⟨he, hle, -⟩ | ⟨he, -⟩ | ⟨he | he, -⟩
  · rw [he]; exact hout
  · rw [he]
    refine ⟨fun hpend => ?_, fun hpend hsc => ?_⟩
    · rw [transferred_heap_self] at hpend
      exact absurd hpend (Nat.not_lt.mpr hle)
    · rw [transferred_heap_self] at hpend hsc ⊢
      exact ha.srv hpend hsc
  · rw [he]; exact hout
  · rw [he]; exact hmark
  · rw [he]; exact hmark

/-- A server write keeps its connection awake just when it clears what it should. -/
theorem processSrv_write_awake (io : Io) (hs : m.Served c) (hfd : (m.heap c).srvfd = fd)
    (hne : (m.heap c).cltfd ≠ (m.heap c).srvfd) (ha : m.Awake c) :
    (m.processSrv fd .write io c).2.Awake c ↔ SrvWriteClears (m.heap c) io := by
  subst hfd
  have hexit := writeLoop_exit (m.heap c).srvfd (m.heap c).cltBuf io.sends (m.heap c).cltReadIdx
    (m.heap c).cltWriteIdx
  have hcode : ((m.heap c).writeSrv io.sends).1 = (writeLoop (m.heap c).srvfd
    (m.heap c).cltBuf io.sends (m.heap c).cltReadIdx (m.heap c).cltWriteIdx).code := rfl
  have hreg : ((m.transferred c ((m.heap c).writeSrv io.sends)).ker.interest
      (m.heap c).cltfd).isSome = true := hs.cltReg
  have hsreg : ((m.transferred c ((m.heap c).writeSrv io.sends)).ker.interest
      (m.heap c).srvfd).isSome = true := hs.srvReg
  have hcltfd : ((m.heap c).writeSrv io.sends).2.1.cltfd = (m.heap c).cltfd := rfl
  have hmark := markSrvClosed_awake (r := (m.heap c).writeSrv io.sends) rfl hs
  simp only [processSrv]
  rw [hcode]
  rcases hexit with ⟨he, hr, hw, hd, -⟩ | ⟨he, -, hd, -⟩ | ⟨he | he, hd, -⟩
  · rw [he]
    constructor
    · intro hawake _
      refine Nat.not_lt.mp fun hpend => ?_
      have hwait := hawake.clt
      simp only [modfd_heap, transferred_heap_self] at hwait
      have hout := hwait hpend
      rw [hcltfd, waitsOut_modfd_of_ne _ hne, waitsOut_modfd_self _ hreg] at hout
      cases hout
    · intro hclears
      refine ⟨fun hpend => ?_, fun hpend => ?_⟩
      · simp only [modfd_heap, transferred_heap_self] at hpend
        exact absurd hpend (Nat.not_lt.mpr (hclears hd))
      · simp only [modfd_heap, transferred_heap_self] at hpend
        have h1 : ((m.heap c).writeSrv io.sends).2.1.cltReadIdx = 0 := hr
        omega
  · rw [he]
    refine ⟨fun _ hd' => (by rw [hd] at hd'; cases hd'), fun _ => ⟨fun hpend => ?_, fun _ _ => ?_⟩⟩
    · simp only [modfd_heap, transferred_heap_self] at hpend ⊢
      exact waitsOut_modfd_out (ha.clt hpend)
    · simp only [modfd_heap, transferred_heap_self]
      exact (waitsOut_modfd_self epollout hsreg).mpr rfl
  · rw [he]
    exact ⟨fun _ hd' => (by rw [hd] at hd'; cases hd'), fun _ => hmark⟩
  · rw [he]
    exact ⟨fun _ hd' => (by rw [hd] at hd'; cases hd'), fun _ => hmark⟩

/-- The client half of `process`. -/
theorem processClt_awake {type : OpType} (io : Io) (hi : m.Inv) (hb : m.Bound c)
    (hfd : (m.heap c).cltfd = fd) (ha : m.Awake c) (htype : type ≠ .error) :
    ((m.processClt fd type io c).1 = .closed ∧ (type = .write → CltWriteClears (m.heap c) io)) ∨
    ((m.processClt fd type io c).1 = .ok ∧
      ((m.processClt fd type io c).2.Awake c ↔
        (type = .write → CltWriteClears (m.heap c) io))) := by
  have hs := hi.served c hb
  cases type with
  | error => exact absurd rfl htype
  | read =>
    rcases processClt_read_awake fd io hs ha with h | ⟨hok, h⟩
    · exact .inl ⟨h, fun e => (by cases e)⟩
    · exact .inr ⟨hok, fun _ e => (by cases e), fun _ => h⟩
  | write =>
    simpa only [forall_const] using processClt_write_awake io hs hfd (hi.tables.sides c hb) ha

/-- The server half of `process`. -/
theorem processSrv_awake {type : OpType} (io : Io) (hi : m.Inv) (hb : m.Bound c)
    (hfd : (m.heap c).srvfd = fd) (ha : m.Awake c) (htype : type ≠ .error) :
    (m.processSrv fd type io c).2.Awake c ↔ (type = .write → SrvWriteClears (m.heap c) io) := by
  have hs := hi.served c hb
  cases type with
  | error => exact absurd rfl htype
  | read =>
    have h := processSrv_read_awake fd io hs ha
    exact ⟨fun _ e => (by cases e), fun _ => h⟩
  | write =>
    simpa only [forall_const] using processSrv_write_awake io hs hfd (hi.tables.sides c hb) ha

/-- The connection an event is for is freed, or stays awake just when a write clears what it
should. -/
theorem process_awake {type : OpType} (io : Io) (hi : m.Inv) (hused : m.used[fd]? = some (some c))
    (ha : m.Awake c) (htype : type ≠ .error) :
    ((m.process fd type io).1 = .closed ∧ (type = .write → ConnWriteClears (m.heap c) fd io)) ∨
    ((m.process fd type io).1 = .ok ∧
      ((m.process fd type io).2.Awake c ↔
        (type = .write → ConnWriteClears (m.heap c) fd io))) := by
  obtain ⟨hb, hfd⟩ := hi.tables.used fd c hused
  have hi0 := usedAt_inv hi fd
  have hb0 := ((touches_usedAt hused c).bound_iff c).mpr hb
  have ha0 : (m.usedAt fd).2.Awake c := ⟨ha.clt, ha.srv⟩
  rw [process_of_some hi hused, ConnWriteClears]
  by_cases hclt : (m.heap c).cltfd = fd
  · rw [if_pos hclt, if_pos hclt]
    exact processClt_awake io hi0 hb0 hclt ha0 htype
  · rw [if_neg hclt, if_neg hclt]
    have hsrv := hfd.resolve_left hclt
    obtain ⟨m', -, -, hres⟩ := processSrv_cases type io hi0 hb0 hsrv
    exact .inr ⟨by rw [hres], processSrv_awake io hi0 hb0 hsrv ha0 htype⟩

/-- `process` keeps every connection awake just when a write clears what it should. -/
theorem process_allAwake {type : OpType} (io : Io) (hi : m.Inv) (ha : m.AllAwake)
    (htype : type ≠ .error) :
    (m.process fd type io).2.AllAwake ↔ (type = .write → m.WriteClears fd io) := by
  rcases process_cases hi fd type io with ⟨hnone, hp⟩ | ⟨c, hused, hb, m', ht, -, hp⟩
  · rw [hp]
    refine ⟨fun _ _ c hc => absurd (mem_used_join.mp hc) (hnone c), fun _ d hd => ?_⟩
    exact ⟨(ha d hd).clt, (ha d hd).srv⟩
  · have hother : ∀ d, m'.Bound d → d ≠ c → m'.Awake d := fun d hd hne =>
      ht.awake_other hi.tables hb ((ht.bound_iff d).mp hd) hne (ha d ((ht.bound_iff d).mp hd))
    have hb' := (ht.bound_iff c).mpr hb
    rw [WriteClears, forall_mem_used hused]
    rcases process_awake io hi hused (ha c hb) htype with ⟨hcode, hcond⟩ | ⟨hcode, hiff⟩
    · rcases hp with hp | hp
      · rw [hp] at hcode
        cases hcode
      · refine ⟨fun _ => hcond, fun _ => ?_⟩
        rw [hp]
        exact freeConn_awake (ht.tables hi.tables) hb' hother
    · rcases hp with hp | hp
      · rw [← hiff, hp]
        constructor
        · intro h
          exact h c hb'
        · intro h d hd
          by_cases hne : d = c
          · exact hne ▸ h
          · exact hother d hd hne
      · rw [hp] at hcode
        cases hcode

end Event

/-- A client that was just bound has nothing buffered. -/
theorem bindClient_allAwake {m : Mgr} {c : Nat} {srvfd connfd : Int} (hi : m.Inv)
    (hc : m.conns[srvfd]? = some (some c)) (hf : m.ker.Fresh connfd) (ha : m.AllAwake) :
    (m.bindClient c srvfd connfd).AllAwake := by
  have ht := hi.tables
  obtain ⟨hlt, hclt, hsrv⟩ := ht.idle_conn hc
  have hci : m.Idle c := ⟨srvfd, hc⟩
  have hreset := hi.clean c hclt
  intro d hd
  by_cases hne : d = c
  · subst hne
    have hsrv0 : (m.heap d).srvReadIdx = 0 := by rw [← hreset]; rfl
    have hclt0 : (m.heap d).cltReadIdx = 0 := by rw [← hreset]; rfl
    constructor
    · intro hpend
      rw [bindClient_heap_self] at hpend
      simp only [Conn.initClt, hsrv0] at hpend
      omega
    · intro hpend
      rw [bindClient_heap_self] at hpend
      simp only [Conn.initClt, hclt0] at hpend
      omega
  · have hb := ((bindClient_bound hlt hf.1).mp hd).resolve_left hne
    have hintr : ∀ fd, m.Owns d fd →
        (m.bindClient c srvfd connfd).ker.interest fd = m.ker.interest fd := by
      intro fd ho
      have h1 : fd ≠ connfd := ht.fresh_ne ho hf
      have h2 : fd ≠ srvfd := hsrv ▸ ht.fd_ne (owns_idle hci) ho hne
      simp only [bindClient, Kernel.ctlAdd_interest_of_ne _ _ h2,
        Kernel.ctlAdd_interest_of_ne _ _ h1, Kernel.openFd_interest, Function.update_of_ne h1]
    constructor
    · simpa only [bindClient_heap_of_ne hne, WaitsOut, hintr _ (owns_clt hb)] using (ha d hb).clt
    · simpa only [bindClient_heap_of_ne hne, WaitsOut, hintr _ (owns_srv hb)] using (ha d hb).srv

end Mgr

/-- The step is not a write that empties one buffer of a connection while the other holds data. -/
def StepClears (p : Pipes) (s : Child) (i : Input) : Prop :=
  ∀ h ∈ s.hands p i, h.2.1 = .write → s.mgr.WriteClears h.1 h.2.2

instance (p : Pipes) (s : Child) (i : Input) : Decidable (StepClears p s i) := by
  unfold StepClears; infer_instance

theorem child_step_allAwake (p : Pipes) (s : Child) (i : Input) (hi : s.mgr.Inv)
    (hok : (child p).ok s i) (ha : s.mgr.AllAwake) :
    ((child p).step s i).mgr.AllAwake ↔ StepClears p s i := by
  exact child_step_iff hi hok (P := Mgr.AllAwake)
    (Q := fun h => h.2.1 = .write → s.mgr.WriteClears h.1 h.2.2)
    (fun fd type io htype => Mgr.process_allAwake io hi ha htype)
    (fun _ _ _ hc hf => Mgr.bindClient_allAwake hi hc hf ha)
    (fun _ hk d hd => (hk.awake ((hk.bound d).mp hd)).mpr (ha d ((hk.bound d).mp hd)))

/-- In every run of a child, all bound connections are awake after every event just when every
write clears what it should. -/
theorem awake_iff_each (p : Pipes) (k : Kernel Interest) (os : List Mgr.BuildOutcome)
    (is : List Input) (hv : Mgr.builder.Valid (Mgr.empty k) os)
    (hr : (child p).Valid (Child.start (Mgr.create k os)) is) :
    (child p).Always (fun s => s.mgr.AllAwake) (Child.start (Mgr.create k os)) is ↔
      (child p).Each (StepClears p) (Child.start (Mgr.create k os)) is :=
  Machine.always_iff_each (fun s i hi hok => child_step_inv p s i hi hok)
    (fun s i hi hok ha => child_step_allAwake p s i hi hok ha) (Mgr.create_inv hv)
    (fun c hb => absurd ((Mgr.create_building hv).blank c) hb.2) hr

/-- **No buffered data without a wake-up**: a run whose writes clear what they should comes back to
`epoll_wait` with every bound connection awake. -/
theorem awake_at_wait (p : Pipes) (k : Kernel Interest) (os : List Mgr.BuildOutcome)
    (is : List Input) (hv : Mgr.builder.Valid (Mgr.empty k) os)
    (hr : (child p).Valid (Child.start (Mgr.create k os)) is)
    (hclears : (child p).Each (StepClears p) (Child.start (Mgr.create k os)) is) :
    (child p).Always (fun s => s.batch = [] → s.mgr.AllAwake)
      (Child.start (Mgr.create k os)) is :=
  ((awake_iff_each p k os is hv hr).mpr hclears).imp fun _ h _ => h

/-- A client's request goes out in one piece, and its answer in two. -/
def answeredRun : List Input :=
  [.wait (.ready [announced]), .next (accepting 7),
    .wait (.ready [readable 7]), .next (transferring [.data [1, 2]] []),
    .wait (.ready [writable 5]), .next (transferring [] [.take 2]),
    .wait (.ready [readable 5]), .next (transferring [.data [9, 8]] []),
    .wait (.ready [writable 7]), .next (transferring [] [.take 1])]

theorem awake_at_wait_answered :
    (child pipes34).Always (fun s => s.batch = [] → s.mgr.AllAwake)
      (Child.start (Mgr.create kernel34 [.built 5])) answeredRun :=
  awake_at_wait pipes34 kernel34 [.built 5] answeredRun (by decide +kernel) (by decide +kernel)
    (by decide +kernel)

/-- Both sides send one byte, and the answer drains to the client before the server has room. -/
def asleepRun : List Input :=
  [.wait (.ready [announced]), .next (accepting 7),
    .wait (.ready [readable 7, readable 5]), .next (transferring [.data [1]] []),
    .next (transferring [.data [9]] []),
    .wait (.ready [writable 7]), .next (transferring [] [.take 1])]

/-- The byte for the server is still buffered when the loop is back at `epoll_wait`, the server side
is open, and its descriptor is registered for `EPOLLIN` alone. -/
theorem asleep_at_wait :
    Mgr.builder.Valid (Mgr.empty kernel34) [.built 5] ∧
      (child pipes34).Valid (Child.start (Mgr.create kernel34 [.built 5])) asleepRun ∧
      (let s := (child pipes34).run (Child.start (Mgr.create kernel34 [.built 5])) asleepRun
      s.batch = [] ∧ s.mgr.Bound 0 ∧ (s.mgr.heap 0).cltWriteIdx < (s.mgr.heap 0).cltReadIdx ∧
        (s.mgr.heap 0).srvClosed = false ∧
        s.mgr.ker.interest (s.mgr.heap 0).srvfd = some epollin ∧ ¬ s.mgr.AllAwake) := by
  refine ⟨by decide +kernel, by decide +kernel, ?_⟩
  intro s
  have hbound : s.mgr.Bound 0 := ⟨by decide +kernel, by decide +kernel⟩
  have hpend : (s.mgr.heap 0).cltWriteIdx < (s.mgr.heap 0).cltReadIdx := by decide +kernel
  have hopen : (s.mgr.heap 0).srvClosed = false := by decide +kernel
  have hreg : s.mgr.ker.interest (s.mgr.heap 0).srvfd = some epollin := by decide +kernel
  refine ⟨by decide +kernel, hbound, hpend, hopen, hreg, fun h => ?_⟩
  obtain ⟨i, hi, hout⟩ := (h 0 hbound).srv hpend hopen
  rw [hreg] at hi
  cases hi
  cases hout

end Springsnail
end Unpvol1
