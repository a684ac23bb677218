import Unpvol1.Springsnail.Wakeup

/-!
# Springsnail.Drain

Is a connection whose server side closed drained to the client before it is freed?

`process` tests `m_srv_closed` after every client event that did not itself fail, whether or not
`m_srv_buf` is empty.

* `drained_iff` — in every run, every such free is drained (or the client's socket had failed) just
  when each client event on a connection whose server side is closed is a read that fails or finds
  `m_srv_buf` empty, or a write that fails or empties it (`StepDrains`).
* `undrained` — a run that frees a connection with bytes from the server still buffered.

The invariant besides `Mgr.Inv` is `Healthy`: the client socket of a bound connection never failed.
-/

namespace Unpvol1
namespace Springsnail
namespace Mgr

/-- No call on the client descriptor of a bound connection met end of stream or an error. -/
def Healthy (m : Mgr) : Prop :=
  ∀ c, m.Bound c → (m.ker.log (m.heap c).cltfd).failed = false

/-- Every byte read from the server of `c` was accepted by its client. -/
def Drained (m : Mgr) (cltfd srvfd : Int) : Prop :=
  (m.ker.log srvfd).received = (m.ker.log cltfd).accepted

/-- The client read fails, or nothing is left to send to the client. -/
def ReadDrains (conn : Conn) (io : Io) : Prop :=
  RecvFails io.recvs (bufSize - conn.cltReadIdx) = true ∨ conn.srvReadIdx ≤ conn.srvWriteIdx

/-- The client write fails or sends all that is left. -/
def WriteDrains (conn : Conn) (io : Io) : Prop :=
  SendFails io.sends (conn.srvReadIdx - conn.srvWriteIdx) = true ∨
    Drains io.sends (conn.srvReadIdx - conn.srvWriteIdx) = true

/-- A client event on `conn` that frees it because its server side is closed finds it drained. -/
def ConnDrains (conn : Conn) (fd : Int) (type : OpType) (io : Io) : Prop :=
  conn.cltfd = fd → conn.srvClosed = true →
    (type = .read → ReadDrains conn io) ∧ (type = .write → WriteDrains conn io)

instance (conn : Conn) (fd : Int) (type : OpType) (io : Io) :
    Decidable (ConnDrains conn fd type io) := by
  unfold ConnDrains ReadDrains WriteDrains; infer_instance

section Event

variable {m m' : Mgr} {c d : Nat} {fd : Int}

/-- What a client read leaves in the logs, and when it frees its connection. -/
theorem processClt_read_log (m : Mgr) (c : Nat) (fd : Int) (io : Io) :
    (m.processClt fd .read io c).2.ker.log =
      (m.transferred c ((m.heap c).readClt io.recvs)).ker.log ∧
    ((m.processClt fd .read io c).1 = .closed ↔
      RecvFails io.recvs (bufSize - (m.heap c).cltReadIdx) = true ∨
        (m.heap c).srvClosed = true) := by
  have hexit := readLoop_exit (m.heap c).cltfd (m.heap c).cltWriteIdx io.recvs (m.heap c).cltBuf
    (m.heap c).cltReadIdx
  have hcode : ((m.heap c).readClt io.recvs).1 = (readLoop (m.heap c).cltfd
    (m.heap c).cltWriteIdx io.recvs (m.heap c).cltBuf (m.heap c).cltReadIdx).code := rfl
  have hclosed : ((m.heap c).readClt io.recvs).2.1.srvClosed = (m.heap c).srvClosed := rfl
  simp only [processClt]
  rw [hcode]
  rcases hexit with ⟨he, -, hf⟩ | ⟨he, -, hf⟩ | ⟨he, hf⟩ | ⟨he | he, hf⟩
  · rw [he, hf]
    simp only [modfd_heap, transferred_heap_self, hclosed]
    split <;> simp [modfd, freeConn_log, *]
  · rw [he, hf]
    simp only [transferred_heap_self, hclosed]
    split <;> simp [freeConn_log, *]
  · rw [he, hf]
    simp only [modfd_heap, transferred_heap_self, hclosed]
    split <;> simp [modfd, freeConn_log, *]
  · rw [he, hf]
    simp [freeConn_log]
  · rw [he, hf]
    simp [freeConn_log]

/-- What a client write leaves in the logs, and when it frees its connection. -/
theorem processClt_write_log (m : Mgr) (c : Nat) (fd : Int) (io : Io) :
    (m.processClt fd .write io c).2.ker.log =
      (m.transferred c ((m.heap c).writeClt io.sends)).ker.log ∧
    ((m.processClt fd .write io c).1 = .closed ↔
      SendFails io.sends ((m.heap c).srvReadIdx - (m.heap c).srvWriteIdx) = true ∨
        (m.heap c).srvClosed = true) := by
  have hexit := writeLoop_exit (m.heap c).cltfd (m.heap c).srvBuf io.sends (m.heap c).srvReadIdx
    (m.heap c).srvWriteIdx
  have hcode : ((m.heap c).writeClt io.sends).1 = (writeLoop (m.heap c).cltfd
    (m.heap c).srvBuf io.sends (m.heap c).srvReadIdx (m.heap c).srvWriteIdx).code := rfl
  have hclosed : ((m.heap c).writeClt io.sends).2.1.srvClosed = (m.heap c).srvClosed := rfl
  simp only [processClt]
  rw [hcode]
  rcases hexit with ⟨he, -, -, -, hf⟩ | ⟨he, -, -, hf⟩ | ⟨he | he, -, hf⟩
  · rw [he, hf]
    simp only [modfd_heap, transferred_heap_self, hclosed]
    split <;> simp [modfd, freeConn_log, *]
  · rw [he, hf]
    simp only [modfd_heap, transferred_heap_self, hclosed]
    split <;> simp [modfd, freeConn_log, *]
  · rw [he, hf]
    simp [freeConn_log]
  · rw [he, hf]
    simp [freeConn_log]

/-- A client read fails the client descriptor just when its outcomes do. -/
theorem read_failed (io : Io) :
    ((m.transferred c ((m.heap c).readClt io.recvs)).ker.log (m.heap c).cltfd).failed =
      ((m.ker.log (m.heap c).cltfd).failed ||
        RecvFails io.recvs (bufSize - (m.heap c).cltReadIdx)) := by
  have h : failed (m.heap c).cltfd ((m.heap c).readClt io.recvs).2.2 =
      RecvFails io.recvs (bufSize - (m.heap c).cltReadIdx) := readLoop_failed _ _ _
  rw [← h]
  rfl

theorem write_failed (io : Io) :
    ((m.transferred c ((m.heap c).writeClt io.sends)).ker.log (m.heap c).cltfd).failed =
      ((m.ker.log (m.heap c).cltfd).failed ||
        SendFails io.sends ((m.heap c).srvReadIdx - (m.heap c).srvWriteIdx)) := by
  have h : failed (m.heap c).cltfd ((m.heap c).writeClt io.sends).2.2 =
      SendFails io.sends ((m.heap c).srvReadIdx - (m.heap c).srvWriteIdx) := writeLoop_failed _
  rw [← h]
  rfl

/-- A transfer leaves its connection drained just when it leaves `m_srv_buf` empty. -/
theorem transferred_drained (t : Transfer) (hne : (m.heap c).cltfd ≠ (m.heap c).srvfd)
    (hs : m.Served c) :
    (m.transferred c (t.apply (m.heap c))).Drained (m.heap c).cltfd (m.heap c).srvfd ↔
      (t.apply (m.heap c)).2.1.srvReadIdx ≤ (t.apply (m.heap c)).2.1.srvWriteIdx := by
  have hrel := (served_transfer t hne hs).relays
  rw [transferred_heap_self, t.apply_cltfd, t.apply_srvfd] at hrel
  exact hrel.down_drained_iff

/-- A client event on a connection whose server side is closed leaves the client socket failed, or
the connection drained, just when it should. -/
theorem processClt_drained {type : OpType} (io : Io) (hi : m.Inv) (hh : m.Healthy)
    (hb : m.Bound c) (hfd : (m.heap c).cltfd = fd) (hclosed : (m.heap c).srvClosed = true)
    (htype : type ≠ .error) :
    (((m.processClt fd type io c).2.ker.log (m.heap c).cltfd).failed = false →
      (m.processClt fd type io c).2.Drained (m.heap c).cltfd (m.heap c).srvfd) ↔
    ConnDrains (m.heap c) fd type io := by
  have hne := hi.tables.sides c hb
  have hs := hi.served c hb
  cases type with
  | error => exact absurd rfl htype
  | read =>
    have hdr := transferred_drained (.readClt io.recvs) hne hs
    rw [Drained, (processClt_read_log m c fd io).1, read_failed, hh c hb, Bool.false_or]
    have hcond : ConnDrains (m.heap c) fd .read io ↔ ReadDrains (m.heap c) io := by
      simp [ConnDrains, hfd, hclosed]
    rw [hcond, ReadDrains]
    constructor
    · intro h
      cases hf : RecvFails io.recvs (bufSize - (m.heap c).cltReadIdx) with
      | true => exact .inl rfl
      | false => exact .inr (hdr.mp (h hf))
    · rintro (hf | hle) hnf
      · rw [hf] at hnf
        cases hnf
      · exact hdr.mpr hle
  | write =>
    have hdr := transferred_drained (.writeClt io.sends) hne hs
    rw [Drained, (processClt_write_log m c fd io).1, write_failed, hh c hb, Bool.false_or]
    have hcond : ConnDrains (m.heap c) fd .write io ↔ WriteDrains (m.heap c) io := by
      simp [ConnDrains, hfd, hclosed]
    rw [hcond, WriteDrains]
    have hexit := writeLoop_exit (m.heap c).cltfd (m.heap c).srvBuf io.sends
      (m.heap c).srvReadIdx (m.heap c).srvWriteIdx
    rcases hexit with ⟨-, hr, hw, hd, hf⟩ | ⟨-, hlt, hd, hf⟩ | ⟨-, hd, hf⟩
    · refine ⟨fun _ => .inr hd, fun _ _ => hdr.mpr ?_⟩
      exact Nat.le_of_eq (hr.trans hw.symm)
    · -- the loop stopped with bytes left, so nothing was drained and nothing failed
      rw [hf, hd]
      simp only [Bool.false_eq_true, or_self, iff_false, forall_const]
      intro hdrained
      exact absurd (hdr.mp hdrained) (Nat.not_le.mpr hlt)
    · refine ⟨fun _ => .inl hf, fun _ hnf => ?_⟩
      rw [hf] at hnf
      cases hnf

/-- A client event that leaves its connection bound did not fail the client socket. -/
theorem processClt_healthy {type : OpType} (io : Io) (hh : m.Healthy) (hb : m.Bound c)
    (hok : (m.processClt fd type io c).1 ≠ .closed) :
    ((m.processClt fd type io c).2.ker.log (m.heap c).cltfd).failed = false := by
  cases type with
  | error => exact hh c hb
  | read =>
    obtain ⟨hlog, hcode⟩ := processClt_read_log m c fd io
    rw [hlog, read_failed, hh c hb, Bool.false_or]
    exact Bool.not_eq_true _ ▸ fun hf => hok (hcode.mpr (.inl hf))
  | write =>
    obtain ⟨hlog, hcode⟩ := processClt_write_log m c fd io
    rw [hlog, write_failed, hh c hb, Bool.false_or]
    exact Bool.not_eq_true _ ▸ fun hf => hok (hcode.mpr (.inl hf))

/-- A server event makes no call on the client descriptor. -/
theorem processSrv_log (type : OpType) (io : Io) (hne : (m.heap c).cltfd ≠ (m.heap c).srvfd) :
    (m.processSrv fd type io c).2.ker.log (m.heap c).cltfd = m.ker.log (m.heap c).cltfd := by
  cases type with
  | error => rfl
  | read =>
    have hcalls : ∀ call ∈ ((m.heap c).readSrv io.recvs).2.2, call.fd = (m.heap c).srvfd :=
      fun call hc => (readLoop_calls io.recvs call hc).1
    have hlog : (m.processSrv fd .read io c).2.ker.log =
        (m.transferred c ((m.heap c).readSrv io.recvs)).ker.log := by
      simp only [processSrv]
      split <;> simp [modfd, markSrvClosed, setConn]
    rw [hlog, transferred_log hcalls hne.symm]
  | write =>
    have hcalls : ∀ call ∈ ((m.heap c).writeSrv io.sends).2.2, call.fd = (m.heap c).srvfd :=
      fun call hc => (writeLoop_calls io.sends call hc).1
    have hlog : (m.processSrv fd .write io c).2.ker.log =
        (m.transferred c ((m.heap c).writeSrv io.sends)).ker.log := by
      simp only [processSrv]
      split <;> simp [modfd, markSrvClosed, setConn]
    rw [hlog, transferred_log hcalls hne.symm]

theorem process_healthy {type : OpType} (io : Io) (hi : m.Inv) (hh : m.Healthy) :
    (m.process fd type io).2.Healthy := by
  rcases process_cases hi fd type io with ⟨-, hp⟩ | ⟨c, hused, hb, m', ht, -, hp⟩
  · rw [hp]
    exact hh
  · obtain ⟨-, hfd⟩ := hi.tables.used fd c hused
    have hother : ∀ d, m'.Bound d → d ≠ c → (m'.ker.log (m'.heap d).cltfd).failed = false := by
      intro d hd hne
      have hbd := (ht.bound_iff d).mp hd
      rw [ht.cltfd, (ht.other hi.tables hb (owns_clt hbd) hne).2]
      exact hh d hbd
    rcases hp with hp | hp
    · have hself : (m'.ker.log (m'.heap c).cltfd).failed = false := by
        have hm' : m' = (m.process fd type io).2 := by rw [hp]
        rw [ht.cltfd, hm', process_of_some hi hused]
        rw [process_of_some hi hused] at hp
        by_cases hclt : (m.heap c).cltfd = fd
        · rw [if_pos hclt] at hp ⊢
          have hb0 := ((touches_usedAt hused c).bound_iff c).mpr hb
          exact processClt_healthy (m := (m.usedAt fd).2) io hh hb0 (by rw [hp]; simp)
        · rw [if_neg hclt]
          have hne := hi.tables.sides c hb
          exact (congrArg FdLog.failed (processSrv_log (m := (m.usedAt fd).2) type io hne)).trans
            (hh c hb)
      rw [hp]
      intro d hd
      by_cases hne : d = c
      · exact hne ▸ hself
      · exact hother d hd hne
    · rw [hp]
      intro d hd
      obtain ⟨hne, hbd⟩ := freeConn_bound.mp hd
      rw [freeConn_heap_of_ne hne, freeConn_log]
      exact hother d hbd hne

theorem bindClient_healthy {srvfd connfd : Int} (hi : m.Inv)
    (hc : m.conns[srvfd]? = some (some c)) (hf : m.ker.Fresh connfd) (hh : m.Healthy) :
    (m.bindClient c srvfd connfd).Healthy := by
  have hlt := (hi.tables.idle_conn hc).1
  intro d hd
  by_cases hne : d = c
  · subst hne
    rw [bindClient_heap_self]
    simp [bindClient, Conn.initClt, FdLog.empty]
  · have hb := ((bindClient_bound hlt hf.1).mp hd).resolve_left hne
    rw [bindClient_heap_of_ne hne, (bindClient_ker (hi.tables.fresh_ne (owns_clt hb) hf)).2]
    exact hh d hb

theorem Keeps.healthy (h : Keeps m m') (hh : m.Healthy) : m'.Healthy := by
  intro d hd
  have hb := (h.bound d).mp hd
  rw [h.heap d hb, h.log d _ hb (owns_clt hb)]
  exact hh d hb

/-- Every connection that `m` has bound with its server side closed and `m'` has no longer was
drained, unless its client socket failed. -/
def DrainedFrees (m m' : Mgr) : Prop :=
  ∀ c, m.Bound c → (m.heap c).srvClosed = true → ¬ m'.Bound c →
    (m'.ker.log (m.heap c).cltfd).failed = false → m'.Drained (m.heap c).cltfd (m.heap c).srvfd

/-- A client event on a connection whose server side is closed frees it. -/
theorem processClt_closed {type : OpType} (io : Io) (h : (m.heap c).srvClosed = true)
    (htype : type ≠ .error) : (m.processClt fd type io c).1 = .closed := by
  cases type with
  | error => exact absurd rfl htype
  | read => exact (processClt_read_log m c fd io).2.mpr (.inr h)
  | write => exact (processClt_write_log m c fd io).2.mpr (.inr h)

/-- Only a client event frees a connection. -/
theorem process_closed_clt {type : OpType} {io : Io} (hi : m.Inv)
    (hused : m.used[fd]? = some (some c)) (h : (m.process fd type io).1 = .closed) :
    (m.heap c).cltfd = fd := by
  obtain ⟨hb, hfd⟩ := hi.tables.used fd c hused
  by_contra hclt
  have hb0 := ((touches_usedAt hused c).bound_iff c).mpr hb
  obtain ⟨m', -, -, hres⟩ := processSrv_cases type io (usedAt_inv hi fd) hb0
    (hfd.resolve_left hclt)
  rw [process_of_some hi hused, if_neg hclt, hres] at h
  cases h

theorem process_drainedFrees {type : OpType} (io : Io) (hi : m.Inv) (hh : m.Healthy)
    (htype : type ≠ .error) :
    DrainedFrees m (m.process fd type io).2 ↔
      ∀ c ∈ (m.used[fd]?).join, ConnDrains (m.heap c) fd type io := by
  rcases process_cases hi fd type io with ⟨hnone, hp⟩ | ⟨c, hused, hb, m', ht, -, hp⟩
  · rw [hp]
    refine ⟨fun _ c hc => absurd (mem_used_join.mp hc) (hnone c), fun _ d hd _ hgone => ?_⟩
    exact absurd hd hgone
  · rw [forall_mem_used hused]
    have hb' := (ht.bound_iff c).mpr hb
    rcases hp with hp | hp
    · -- nothing is freed: the server side is open, or the event is not the client's
      have hkept : ∀ d, m.Bound d → (m.process fd type io).2.Bound d := by
        intro d hd
        rw [hp]
        exact (ht.bound_iff d).mpr hd
      refine ⟨fun _ hclt hclosed => ?_, fun _ d hd _ hgone => absurd (hkept d hd) hgone⟩
      have hcode : ((m.usedAt fd).2.processClt fd type io c).1 = .closed :=
        processClt_closed io hclosed htype
      rw [process_of_some hi hused, if_pos hclt] at hp
      rw [hp] at hcode
      cases hcode
    · have hfreed : ∀ d, m.Bound d → ¬ (m.process fd type io).2.Bound d → d = c := by
        intro d hd hgone
        by_contra hne
        rw [hp] at hgone
        exact hgone (freeConn_bound.mpr ⟨hne, (ht.bound_iff d).mpr hd⟩)
      have hgone : ¬ (m.process fd type io).2.Bound c := by
        rw [hp]
        exact fun h => (freeConn_bound.mp h).1 rfl
      have hclt := process_closed_clt hi hused (congrArg Prod.fst hp)
      by_cases hclosed : (m.heap c).srvClosed = true
      · have hb0 := ((touches_usedAt hused c).bound_iff c).mpr hb
        have hiff := processClt_drained (m := (m.usedAt fd).2) io (usedAt_inv hi fd) hh hb0 hclt
          hclosed htype
        have hside : (m.process fd type io).2 = ((m.usedAt fd).2.processClt fd type io c).2 := by
          rw [process_of_some hi hused, if_pos hclt]
        constructor
        · intro h
          exact hiff.mp (hside ▸ h c hb hclosed hgone)
        · intro h d hd _ hd' hnf
          obtain rfl := hfreed d hd hd'
          rw [hside] at hnf ⊢
          exact hiff.mpr h hnf
      · refine ⟨fun _ _ h => absurd h hclosed, fun _ d hd h hd' => ?_⟩
        obtain rfl := hfreed d hd hd'
        exact absurd h hclosed

end Event
end Mgr

/-- The step frees no connection whose server side is closed before it is drained. -/
def StepFreesDrained (p : Pipes) (s : Child) (i : Input) : Prop :=
  Mgr.DrainedFrees s.mgr ((child p).step s i).mgr

/-- A client event on a connection whose server side is closed fails or finds or leaves nothing for
the client. -/
def StepDrains (p : Pipes) (s : Child) (i : Input) : Prop :=
  ∀ h ∈ s.hands p i, ∀ c ∈ (s.mgr.used[h.1]?).join,
    Mgr.ConnDrains (s.mgr.heap c) h.1 h.2.1 h.2.2

instance (p : Pipes) (s : Child) (i : Input) : Decidable (StepDrains p s i) := by
  unfold StepDrains; infer_instance

theorem child_step_healthy (p : Pipes) (s : Child) (i : Input) (hi : s.mgr.Inv)
    (hok : (child p).ok s i) (hh : s.mgr.Healthy) : ((child p).step s i).mgr.Healthy := by
  rcases child_step_cases p s i hi hok with
    ⟨fd, type, io, -, -, h⟩ | ⟨-, c, srvfd, connfd, hc, hf, h⟩ | ⟨-, -, hkeeps⟩
  · rw [h]; exact Mgr.process_healthy io hi hh
  · rw [h]; exact Mgr.bindClient_healthy hi hc hf hh
  · exact hkeeps.healthy hh

theorem child_step_drained (p : Pipes) (s : Child) (i : Input) (hi : s.mgr.Inv)
    (hh : s.mgr.Healthy) (hok : (child p).ok s i) : StepFreesDrained p s i ↔ StepDrains p s i := by
  refine child_step_iff hi hok (P := Mgr.DrainedFrees s.mgr)
    (Q := fun h => ∀ c ∈ (s.mgr.used[h.1]?).join,
      Mgr.ConnDrains (s.mgr.heap c) h.1 h.2.1 h.2.2)
    (fun fd type io htype => Mgr.process_drainedFrees io hi hh htype) ?_ ?_
  · -- binding a client frees nothing, and neither does a step that `Keeps`
    intro c srvfd connfd hc hf d hd _ hgone
    have hlt := (hi.tables.idle_conn hc).1
    exact absurd ((Mgr.bindClient_bound hlt hf.1).mpr (.inr hd)) hgone
  · intro m' hkeeps d hd _ hgone
    exact absurd ((hkeeps.bound d).mpr hd) hgone

/-- **Drain before free**: in every run of a child, each connection freed after its server side
closed was drained, or its client socket had failed, just when each client event on such a
connection drains it. -/
theorem drained_iff (p : Pipes) (k : Kernel Interest) (os : List Mgr.BuildOutcome)
    (is : List Input) (hv : Mgr.builder.Valid (Mgr.empty k) os)
    (hr : (child p).Valid (Child.start (Mgr.create k os)) is) :
    (child p).Each (StepFreesDrained p) (Child.start (Mgr.create k os)) is ↔
      (child p).Each (StepDrains p) (Child.start (Mgr.create k os)) is := by
  have hblank := (Mgr.create_building hv).blank
  exact Machine.each_iff (I := fun s : Child => s.mgr.Inv ∧ s.mgr.Healthy)
    (fun s i h hok => ⟨child_step_inv p s i h.1 hok, child_step_healthy p s i h.1 hok h.2⟩)
    (fun s i h hok => child_step_drained p s i h.1 h.2 hok)
    ⟨Mgr.create_inv hv, fun c hb => absurd (hblank c) hb.2⟩ hr

/-- A server sends two bytes and closes; the client takes both at once. -/
def drainedRun : List Input :=
  [.wait (.ready [announced]), .next (accepting 7),
    .wait (.ready [readable 5]), .next (transferring [.data [9, 8], .data []] []),
    .wait (.ready [writable 7]), .next (transferring [] [.take 2])]

theorem drained_both_bytes :
    (child pipes34).Each (StepFreesDrained pipes34)
      (Child.start (Mgr.create kernel34 [.built 5])) drainedRun :=
  (drained_iff pipes34 kernel34 [.built 5] drainedRun (by decide +kernel)
    (by decide +kernel)).mpr (by decide +kernel)

/-- The same server, but the client socket has room for one byte only. -/
def undrainedRun : List Input :=
  [.wait (.ready [announced]), .next (accepting 7),
    .wait (.ready [readable 5]), .next (transferring [.data [9, 8], .data []] []),
    .wait (.ready [writable 7]), .next (transferring [] [.take 1])]

/-- The connection is freed by its last event, two bytes came from the server, and the client, which
neither closed nor failed, was sent one. -/
theorem undrained :
    Mgr.builder.Valid (Mgr.empty kernel34) [.built 5] ∧
      (child pipes34).Valid (Child.start (Mgr.create kernel34 [.built 5])) undrainedRun ∧
      ((child pipes34).run (Child.start (Mgr.create kernel34 [.built 5]))
        (undrainedRun.take 5)).mgr.Bound 0 ∧
      (let m := ((child pipes34).run (Child.start (Mgr.create kernel34 [.built 5]))
        undrainedRun).mgr
      ¬ m.Bound 0 ∧ m.ker.log 5 = ⟨[9, 8], [], true⟩ ∧ m.ker.log 7 = ⟨[], [9], false⟩) ∧
      ¬ (child pipes34).Each (StepFreesDrained pipes34)
        (Child.start (Mgr.create kernel34 [.built 5])) undrainedRun := by
  have hv : Mgr.builder.Valid (Mgr.empty kernel34) [.built 5] := by decide +kernel
  have hr : (child pipes34).Valid (Child.start (Mgr.create kernel34 [.built 5])) undrainedRun := by
    decide +kernel
  refine ⟨hv, hr, ⟨by decide +kernel, by decide +kernel⟩, ?_, ?_⟩
  · refine ⟨fun h => h.2 (by decide +kernel), by decide +kernel, by decide +kernel⟩
  · intro heach
    obtain ⟨-, -, -, -, -, hlast, -⟩ := heach
    have hdrained := hlast 0 ⟨by decide +kernel, by decide +kernel⟩ (by decide +kernel)
      (fun h => h.2 (by decide +kernel)) (by decide +kernel)
    exact absurd hdrained (by unfold Mgr.Drained; decide +kernel)

end Springsnail
end Unpvol1
