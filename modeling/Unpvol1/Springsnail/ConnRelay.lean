import Unpvol1.Lib.Machine
import Unpvol1.Springsnail.Conn

/-!
# Springsnail.ConnRelay

A connection relays. Each direction of a `Conn` implements a `Relay`: `Carries c up down` says that
`m_clt_buf` holds what `up` has pending and `m_srv_buf` what `down` has pending. Each transfer
pushes what its calls received, or pops what its calls got accepted, in its own direction, and
leaves the other direction alone, whatever exit its loop takes.

`session_relays` lifts this to a whole session of transfers in any order.
-/

namespace Unpvol1
namespace Springsnail

/-! ## The loops -/

section Loops

variable {fd d : Int} {w r : Nat} {buf : List UInt8} {R : Relay UInt8}

/-- A read loop pushes exactly what its calls received. The induction is on the outcomes the
kernel has in store; a full buffer ends the loop before a call is made. -/
theorem readLoop_holds (os : List RecvOutcome) (h : Holds bufSize buf w r R) :
    Holds bufSize (readLoop fd w os buf r).buf w (readLoop fd w os buf r).readIdx
      (R.push (received fd (readLoop fd w os buf r).calls)) := by
  have hnil : R.push [] = R := by simp [Relay.push]
  induction os generalizing buf r R with
  | nil =>
    simp only [readLoop]
    split
    · simpa [hnil] using h
    · simpa [hnil, Call.bytesIn] using h
  | cons o os ih =>
    simp only [readLoop]
    split
    · simpa [hnil] using h
    · rename_i hroom
      split
      · simp [Call.bytesIn, *]
      · simp [Call.bytesIn, *]
      · simp [Call.bytesIn, *]
      · rename_i b bs hgot
        have hlen := recv_length hgot
        have hpush := h.push (show r + (b :: bs).length ≤ bufSize by omega)
        have hrest := ih hpush (by simp [Relay.push])
        simpa [hgot, Call.bytesIn, Relay.push, List.append_assoc] using hrest

/-- A read loop only calls `recv`, on its own descriptor and while there is room, so never with
length 0. -/
theorem readLoop_calls (os : List RecvOutcome) :
    ∀ c ∈ (readLoop fd w os buf r).calls, c.fd = fd ∧ c.isRecv = true ∧ c.asksNothing = false := by
  induction os generalizing buf r with
  | nil =>
    simp only [readLoop]
    split
    · simp
    · rename_i hroom
      refine List.forall_mem_singleton.mpr ⟨rfl, rfl, ?_⟩
      simp only [Call.asksNothing, decide_eq_false_iff_not]
      omega
  | cons o os ih =>
    simp only [readLoop]
    split
    · simp
    · rename_i hroom
      have hcall : ∀ res, (Call.recv fd (bufSize - r) res).fd = fd ∧
          (Call.recv fd (bufSize - r) res).isRecv = true ∧
          (Call.recv fd (bufSize - r) res).asksNothing = false := by
        intro res
        refine ⟨rfl, rfl, ?_⟩
        simp only [Call.asksNothing, decide_eq_false_iff_not]
        omega
      split
      · exact List.forall_mem_singleton.mpr (hcall _)
      · exact List.forall_mem_singleton.mpr (hcall _)
      · exact List.forall_mem_singleton.mpr (hcall _)
      · exact List.forall_mem_cons.mpr ⟨hcall _, ih⟩

/-- A write loop pops exactly what its calls got accepted. -/
theorem writeLoop_holds (fd : Int) (os : List SendOutcome) (h : Holds bufSize buf w r R) :
    ∃ R',
      Holds bufSize buf (writeLoop fd buf os r w).writeIdx (writeLoop fd buf os r w).readIdx R' ∧
      R'.received = R.received ∧
      R'.accepted = R.accepted ++ accepted fd (writeLoop fd buf os r w).calls := by
  induction os generalizing w R with
  | nil =>
    simp only [writeLoop]
    split
    · rename_i he
      exact ⟨R, h.rewind he, rfl, by simp⟩
    · exact ⟨R, h, rfl, by simp [Call.bytesOut]⟩
  | cons o os ih =>
    simp only [writeLoop]
    split
    · rename_i he
      exact ⟨R, h.rewind he, rfl, by simp⟩
    · rename_i hne
      split
      · exact ⟨R, h, rfl, by simp [Call.bytesOut, *]⟩
      · exact ⟨R, h, rfl, by simp [Call.bytesOut, *]⟩
      · exact ⟨R, h, rfl, by simp [Call.bytesOut, *]⟩
      · rename_i n htook
        have hn := send_le htook
        obtain ⟨R', hR', hrec, hacc⟩ := ih (h.pop (n := n + 1) (by omega))
        refine ⟨R', hR', hrec, ?_⟩
        rw [hacc]
        simp [htook, Call.bytesOut, h.slice_eq, List.append_assoc]

/-- A write loop only calls `send`, on its own descriptor. -/
theorem writeLoop_calls (os : List SendOutcome) :
    ∀ c ∈ (writeLoop fd buf os r w).calls,
      c.fd = fd ∧ c.isRecv = false ∧ c.asksNothing = false := by
  induction os generalizing w with
  | nil =>
    simp only [writeLoop]
    split
    · simp
    · exact List.forall_mem_singleton.mpr ⟨rfl, rfl, rfl⟩
  | cons o os ih =>
    simp only [writeLoop]
    split
    · simp
    · split
      · exact List.forall_mem_singleton.mpr ⟨rfl, rfl, rfl⟩
      · exact List.forall_mem_singleton.mpr ⟨rfl, rfl, rfl⟩
      · exact List.forall_mem_singleton.mpr ⟨rfl, rfl, rfl⟩
      · exact List.forall_mem_cons.mpr ⟨⟨rfl, rfl, rfl⟩, ih⟩

end Loops

/-! ## One transfer -/

/-- `m_clt_buf` holds what `up` has pending and `m_srv_buf` what `down` has pending. -/
structure Carries (c : Conn) (up down : Relay UInt8) : Prop where
  up : Holds bufSize c.cltBuf c.cltWriteIdx c.cltReadIdx up
  down : Holds bufSize c.srvBuf c.srvWriteIdx c.srvReadIdx down

theorem carries_reset (c : Conn) : Carries c.reset Relay.fresh Relay.fresh :=
  ⟨.fresh (by simp [Conn.reset]), .fresh (by simp [Conn.reset])⟩

/-- What the log of a session says of a connection: its two directions carry exactly what the
calls on its two descriptors moved. -/
structure Relays (c : Conn) (cltIn srvOut srvIn cltOut : List UInt8) : Prop where
  carries : ∃ up down, Carries c up down ∧ up.received = cltIn ∧ up.accepted = srvOut ∧
    down.received = srvIn ∧ down.accepted = cltOut

theorem relays_reset (c : Conn) : Relays c.reset [] [] [] [] :=
  ⟨Relay.fresh, Relay.fresh, carries_reset c, rfl, rfl, rfl, rfl⟩

namespace Relays

variable {c : Conn} {cltIn srvOut srvIn cltOut : List UInt8}

theorem up_eq (h : Relays c cltIn srvOut srvIn cltOut) :
    cltIn = srvOut ++ slice c.cltBuf c.cltWriteIdx c.cltReadIdx := by
  obtain ⟨up, down, hc, rfl, rfl, -, -⟩ := h
  exact hc.up.received_eq

theorem down_eq (h : Relays c cltIn srvOut srvIn cltOut) :
    srvIn = cltOut ++ slice c.srvBuf c.srvWriteIdx c.srvReadIdx := by
  obtain ⟨up, down, hc, -, -, rfl, rfl⟩ := h
  exact hc.down.received_eq

/-- The client has taken everything read from the server just when `m_srv_buf` is empty. -/
theorem down_drained_iff (h : Relays c cltIn srvOut srvIn cltOut) :
    srvIn = cltOut ↔ c.srvReadIdx ≤ c.srvWriteIdx := by
  obtain ⟨up, down, hc, -, -, rfl, rfl⟩ := h
  rw [← hc.down.pending_eq_nil_iff]
  constructor
  · intro he
    have hreq := down.received_eq
    rw [he] at hreq
    exact List.append_right_eq_self.mp hreq.symm
  · intro he
    rw [down.received_eq, he, List.append_nil]

theorem up_bounds (h : Relays c cltIn srvOut srvIn cltOut) :
    c.cltWriteIdx ≤ c.cltReadIdx ∧ c.cltReadIdx ≤ bufSize := by
  obtain ⟨up, down, hc, -⟩ := h
  exact ⟨hc.up.le, hc.up.fits⟩

theorem down_bounds (h : Relays c cltIn srvOut srvIn cltOut) :
    c.srvWriteIdx ≤ c.srvReadIdx ∧ c.srvReadIdx ≤ bufSize := by
  obtain ⟨up, down, hc, -⟩ := h
  exact ⟨hc.down.le, hc.down.fits⟩

end Relays

section Transfers

variable {c : Conn} {cltIn srvOut srvIn cltOut : List UInt8}

theorem readClt_relays (os : List RecvOutcome) (h : Relays c cltIn srvOut srvIn cltOut) :
    Relays (c.readClt os).2.1 (cltIn ++ received c.cltfd (c.readClt os).2.2) srvOut srvIn
      cltOut := by
  obtain ⟨up, down, hc, rfl, rfl, rfl, rfl⟩ := h
  exact ⟨_, down, ⟨readLoop_holds os hc.up, hc.down⟩, rfl, rfl, rfl, rfl⟩

theorem readSrv_relays (os : List RecvOutcome) (h : Relays c cltIn srvOut srvIn cltOut) :
    Relays (c.readSrv os).2.1 cltIn srvOut (srvIn ++ received c.srvfd (c.readSrv os).2.2)
      cltOut := by
  obtain ⟨up, down, hc, rfl, rfl, rfl, rfl⟩ := h
  exact ⟨up, _, ⟨hc.up, readLoop_holds os hc.down⟩, rfl, rfl, rfl, rfl⟩

theorem writeSrv_relays (os : List SendOutcome) (h : Relays c cltIn srvOut srvIn cltOut) :
    Relays (c.writeSrv os).2.1 cltIn (srvOut ++ accepted c.srvfd (c.writeSrv os).2.2) srvIn
      cltOut := by
  obtain ⟨up, down, hc, rfl, rfl, rfl, rfl⟩ := h
  obtain ⟨up', hup, hrec, hacc⟩ := writeLoop_holds c.srvfd os hc.up
  exact ⟨up', down, ⟨hup, hc.down⟩, hrec, hacc, rfl, rfl⟩

theorem writeClt_relays (os : List SendOutcome) (h : Relays c cltIn srvOut srvIn cltOut) :
    Relays (c.writeClt os).2.1 cltIn srvOut srvIn
      (cltOut ++ accepted c.cltfd (c.writeClt os).2.2) := by
  obtain ⟨up, down, hc, rfl, rfl, rfl, rfl⟩ := h
  obtain ⟨down', hdown, hrec, hacc⟩ := writeLoop_holds c.cltfd os hc.down
  exact ⟨up, down', ⟨hc.up, hdown⟩, rfl, rfl, hrec, hacc⟩

end Transfers

/-- One of the four transfers, with what the kernel has in store for its calls. -/
inductive Transfer where
  | readClt (os : List RecvOutcome)
  | writeSrv (os : List SendOutcome)
  | readSrv (os : List RecvOutcome)
  | writeClt (os : List SendOutcome)

def Transfer.apply (c : Conn) : Transfer → RetCode × Conn × List Call
  | .readClt os => c.readClt os
  | .writeSrv os => c.writeSrv os
  | .readSrv os => c.readSrv os
  | .writeClt os => c.writeClt os

namespace Transfer

variable {c : Conn} {cltIn srvOut srvIn cltOut : List UInt8}

theorem apply_cltfd (c : Conn) (t : Transfer) : (t.apply c).2.1.cltfd = c.cltfd := by
  cases t <;> rfl

theorem apply_srvfd (c : Conn) (t : Transfer) : (t.apply c).2.1.srvfd = c.srvfd := by
  cases t <;> rfl

/-- All calls of a transfer are on one of the connection's two descriptors. -/
theorem calls_fd (c : Conn) (t : Transfer) :
    ∃ fd, (fd = c.cltfd ∨ fd = c.srvfd) ∧ ∀ call ∈ (t.apply c).2.2, call.fd = fd := by
  cases t with
  | readClt os => exact ⟨c.cltfd, .inl rfl, fun call hc => (readLoop_calls os call hc).1⟩
  | writeSrv os => exact ⟨c.srvfd, .inr rfl, fun call hc => (writeLoop_calls os call hc).1⟩
  | readSrv os => exact ⟨c.srvfd, .inr rfl, fun call hc => (readLoop_calls os call hc).1⟩
  | writeClt os => exact ⟨c.cltfd, .inl rfl, fun call hc => (writeLoop_calls os call hc).1⟩

theorem calls_ask (c : Conn) (t : Transfer) :
    ∀ call ∈ (t.apply c).2.2, call.asksNothing = false := by
  cases t with
  | readClt os => exact fun call hc => (readLoop_calls os call hc).2.2
  | writeSrv os => exact fun call hc => (writeLoop_calls os call hc).2.2
  | readSrv os => exact fun call hc => (readLoop_calls os call hc).2.2
  | writeClt os => exact fun call hc => (writeLoop_calls os call hc).2.2

/-- One transfer moves exactly what its calls moved. -/
theorem relays (t : Transfer) (hne : c.cltfd ≠ c.srvfd)
    (h : Relays c cltIn srvOut srvIn cltOut) :
    Relays (t.apply c).2.1
      (cltIn ++ received c.cltfd (t.apply c).2.2) (srvOut ++ accepted c.srvfd (t.apply c).2.2)
      (srvIn ++ received c.srvfd (t.apply c).2.2) (cltOut ++ accepted c.cltfd (t.apply c).2.2) := by
  cases t with
  | readClt os =>
    have hcalls : ∀ call ∈ (c.readClt os).2.2, _ := readLoop_calls os
    simpa [apply, accepted_of_recvs fun a ha => (hcalls a ha).2.1,
      received_of_fd (fun a ha => (hcalls a ha).1) hne] using readClt_relays os h
  | writeSrv os =>
    have hcalls : ∀ call ∈ (c.writeSrv os).2.2, _ := writeLoop_calls os
    simpa [apply, received_of_sends fun a ha => (hcalls a ha).2.1,
      accepted_of_fd (fun a ha => (hcalls a ha).1) hne.symm] using writeSrv_relays os h
  | readSrv os =>
    have hcalls : ∀ call ∈ (c.readSrv os).2.2, _ := readLoop_calls os
    simpa [apply, accepted_of_recvs fun a ha => (hcalls a ha).2.1,
      received_of_fd (fun a ha => (hcalls a ha).1) hne.symm] using readSrv_relays os h
  | writeClt os =>
    have hcalls : ∀ call ∈ (c.writeClt os).2.2, _ := writeLoop_calls os
    simpa [apply, received_of_sends fun a ha => (hcalls a ha).2.1,
      accepted_of_fd (fun a ha => (hcalls a ha).1) hne] using writeClt_relays os h

end Transfer

/-! ## Sessions -/

/-- A connection between one `reset` and the next, with the calls made so far. -/
structure Session where
  conn : Conn
  calls : List Call

/-- The start of a session: a reset connection bound to a server and a client descriptor. -/
def Session.start (c : Conn) (srvfd cltfd : Int) : Session :=
  ⟨(c.reset.initSrv srvfd).initClt cltfd, []⟩

def session : Machine Session Transfer where
  step s t := ⟨(t.apply s.conn).2.1, s.calls ++ (t.apply s.conn).2.2⟩
  ok _ _ := True

theorem session_valid (s : Session) (ts : List Transfer) : session.Valid s ts := by
  induction ts generalizing s with
  | nil => trivial
  | cons t ts ih => exact ⟨trivial, ih _⟩

/-- The session invariant for descriptors `cltfd` and `srvfd`. -/
structure SessionInv (cltfd srvfd : Int) (s : Session) : Prop where
  clt : s.conn.cltfd = cltfd
  srv : s.conn.srvfd = srvfd
  relays : Relays s.conn (received cltfd s.calls) (accepted srvfd s.calls)
    (received srvfd s.calls) (accepted cltfd s.calls)
  asks : ∀ c ∈ s.calls, c.asksNothing = false

theorem sessionInv_start (c : Conn) (srvfd cltfd : Int) :
    SessionInv cltfd srvfd (.start c srvfd cltfd) where
  clt := rfl
  srv := rfl
  relays := ⟨Relay.fresh, Relay.fresh,
    ⟨.fresh (by simp [Session.start, Conn.initClt, Conn.initSrv, Conn.reset]),
      .fresh (by simp [Session.start, Conn.initClt, Conn.initSrv, Conn.reset])⟩, rfl, rfl, rfl, rfl⟩
  asks := by simp [Session.start]

theorem sessionInv_step {cltfd srvfd : Int} (hne : cltfd ≠ srvfd) {s : Session} (t : Transfer)
    (h : SessionInv cltfd srvfd s) : SessionInv cltfd srvfd (session.step s t) := by
  obtain ⟨rfl, rfl, hrel, hasks⟩ := h
  refine ⟨t.apply_cltfd s.conn, t.apply_srvfd s.conn, ?_, ?_⟩
  · simpa [session] using t.relays hne hrel
  · exact List.forall_mem_append.mpr ⟨hasks, t.calls_ask s.conn⟩

/-- What a session owes: each direction has received what its destination accepted followed by its
slice, the indices are ordered and in bounds, and no `recv` asked for zero bytes. -/
structure Relayed (cltfd srvfd : Int) (s : Session) : Prop where
  up : received cltfd s.calls =
    accepted srvfd s.calls ++ slice s.conn.cltBuf s.conn.cltWriteIdx s.conn.cltReadIdx
  up_bounds : s.conn.cltWriteIdx ≤ s.conn.cltReadIdx ∧ s.conn.cltReadIdx ≤ bufSize
  down : received srvfd s.calls =
    accepted cltfd s.calls ++ slice s.conn.srvBuf s.conn.srvWriteIdx s.conn.srvReadIdx
  down_bounds : s.conn.srvWriteIdx ≤ s.conn.srvReadIdx ∧ s.conn.srvReadIdx ≤ bufSize
  asks : ∀ call ∈ s.calls, call.asksNothing = false

/-- **Nothing lost, duplicated or reordered**, in every session and after every transfer of it. -/
theorem session_relays (c : Conn) {srvfd cltfd : Int} (hne : cltfd ≠ srvfd)
    (ts : List Transfer) :
    session.Always (Relayed cltfd srvfd) (Session.start c srvfd cltfd) ts := by
  have hinv : session.Always (SessionInv cltfd srvfd) (Session.start c srvfd cltfd) ts :=
    Machine.always_inv (fun s t h _ => sessionInv_step hne t h) (sessionInv_start c srvfd cltfd)
      (session_valid _ ts)
  refine hinv.imp fun s h => ?_
  exact ⟨h.relays.up_eq, h.relays.up_bounds, h.relays.down_eq, h.relays.down_bounds, h.asks⟩

/-- A client sends five bytes; the server takes two, would block, takes the rest and answers. -/
theorem session_relays_partial :
    session.Always (Relayed 7 5) (Session.start Conn.create 5 7)
      [.readClt [.data [1, 2, 3], .data [4, 5]], .writeSrv [.take 2], .readSrv [.data [9]],
        .writeSrv [.take 8], .writeClt [.take 1]] :=
  session_relays Conn.create (by decide) _

end Springsnail
end Unpvol1
