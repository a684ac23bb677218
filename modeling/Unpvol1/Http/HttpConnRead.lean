import Unpvol1.Springsnail.Conn
import Unpvol1.Http.MainLoop

/-!
# Http.HttpConnRead

`http_conn::read`: `recv` into the rest of the read buffer until the socket has nothing more. That
the buffer is full is tested once, before the loop.

* `Reader`       — the socket and the read buffer, whose indices stay inside it.
* `readLoop`     — the loop, with the calls it makes.
* `read_receive` — the buffer is left as one `receive` of all the bytes that came leaves it.
* `Overfills`    — the bytes of an open connection fill the buffer, and `recv` is asked once more.
* `read_main`    — what `main` acts on is what the loop returns.
-/

namespace Unpvol1
namespace HttpConnRead

open Http (LineBuf)
open HttpConn (readBufferSize)

/-- `m_sockfd`, `m_read_buf` and `m_read_idx`. -/
structure Reader where
  sockfd : Int
  line : LineBuf
  size : line.readBuf.length = readBufferSize
  fits : line.readIdx ≤ readBufferSize

namespace Reader

/-- `READ_BUFFER_SIZE - m_read_idx` -/
def room (r : Reader) : Nat := readBufferSize - r.line.readIdx

/-- Bytes copied to `m_read_buf + m_read_idx`, and `m_read_idx += bytes_read`. -/
def receive (r : Reader) (bs : List UInt8) (h : bs.length ≤ r.room) : Reader where
  sockfd := r.sockfd
  line := r.line.receive bs
  size := by
    have hfits := r.fits
    have hsize := r.size
    rw [← hsize]
    simp only [room] at h
    exact LineBuf.receive_size (by omega)
  fits := by
    have hfits := r.fits
    show r.line.readIdx + bs.length ≤ readBufferSize
    simp only [room] at h
    omega

section
variable (r : Reader) (bs : List UInt8) (h : bs.length ≤ r.room)

@[simp] theorem receive_sockfd : (r.receive bs h).sockfd = r.sockfd := rfl
@[simp] theorem receive_line : (r.receive bs h).line = r.line.receive bs := rfl
@[simp] theorem receive_room : (r.receive bs h).room = r.room - bs.length := Nat.sub_add_eq _ _ _

end
end Reader

/-- What `read` returns and leaves, and its calls of `recv`. -/
structure Fill where
  ret : Bool
  reader : Reader
  calls : List Call

/-- The `while( true )` of `read`. -/
def readLoop : List RecvOutcome → Reader → Fill
  | [], r => ⟨true, r, [.recv r.sockfd r.room (.err .again)]⟩
  | o :: os, r =>
    let call := Call.recv r.sockfd r.room (recv r.room o)
    match h : recv r.room o with
    | .err .again => ⟨true, r, [call]⟩
    | .err _ => ⟨false, r, [call]⟩
    | .got [] => ⟨false, r, [call]⟩
    | .got (b :: bs) =>
      let rest := readLoop os (r.receive (b :: bs) (recv_length h))
      { rest with calls := call :: rest.calls }

def read (os : List RecvOutcome) (r : Reader) : Fill :=
  if r.line.readIdx ≥ readBufferSize then ⟨false, r, []⟩ else readLoop os r

/-! ## One turn of the loop -/

section
variable (r : Reader) (bs : List UInt8) (os : List RecvOutcome)

theorem readLoop_fail (e : Errno) :
    readLoop (.fail e :: os) r =
      ⟨e == .again, r, [.recv r.sockfd r.room (.err e)]⟩ := by
  cases e <;> rfl

theorem readLoop_nothing (h : bs.take r.room = []) :
    readLoop (.data bs :: os) r = ⟨false, r, [.recv r.sockfd r.room (.got [])]⟩ := by
  have hrecv : recv r.room (.data bs) = .got [] := congrArg RecvResult.got h
  unfold readLoop
  split
  · rename_i hr
    rw [hrecv] at hr
    cases hr
  · rename_i hr
    rw [hrecv] at hr
    cases hr
  · rw [hrecv]
  · rename_i hr
    rw [hrecv] at hr
    cases hr

/-- A turn that goes on takes what fits. -/
theorem readLoop_bytes (h : bs.take r.room ≠ []) :
    readLoop (.data bs :: os) r =
      { readLoop os (r.receive (bs.take r.room) (List.length_take_le _ _)) with
        calls := .recv r.sockfd r.room (.got (bs.take r.room)) ::
          (readLoop os (r.receive (bs.take r.room) (List.length_take_le _ _))).calls } := by
  have hrecv : recv r.room (.data bs) = .got (bs.take r.room) := rfl
  rw [readLoop]
  split
  · rename_i hr
    rw [hrecv] at hr
    cases hr
  · rename_i hr
    rw [hrecv] at hr
    cases hr
  · rename_i hr
    rw [hrecv] at hr
    exact absurd (RecvResult.got.inj hr) h
  · rename_i b rest hr
    have hbs : bs.take r.room = b :: rest := RecvResult.got.inj hr
    simp only [hbs, hrecv]

end

/-! ## Whole calls -/

/-- The loop leaves the buffer as one `recv` of everything would. -/
theorem readLoop_line (os : List RecvOutcome) (r : Reader) :
    (readLoop os r).reader.line =
      r.line.receive (received r.sockfd (readLoop os r).calls) := by
  induction os generalizing r with
  | nil => exact (LineBuf.receive_nil r.line).symm
  | cons o os ih =>
    cases o with
    | fail e =>
      rw [readLoop_fail]
      exact (LineBuf.receive_nil r.line).symm
    | data bs =>
      by_cases h : bs.take r.room = []
      · rw [readLoop_nothing r bs os h]
        simp [Call.bytesIn, LineBuf.receive_nil]
      · have hidx : r.line.readIdx ≤ r.line.readBuf.length := by
          rw [r.size]
          exact r.fits
        rw [readLoop_bytes r bs os h]
        simp only [received_cons, Call.bytesIn, if_true]
        rw [ih, Reader.receive_line, Reader.receive_sockfd, LineBuf.receive_receive hidx]

/-- What `read` leaves in the buffer, however the bytes were cut. -/
theorem read_receive (os : List RecvOutcome) (r : Reader) :
    (read os r).reader.line = r.line.receive (received r.sockfd (read os r).calls) := by
  unfold read
  split
  · exact (LineBuf.receive_nil r.line).symm
  · exact readLoop_line os r

/-- The peer has closed, or `recv` fails with something else than `EAGAIN`. -/
def Ends : RecvOutcome → Prop
  | .data bs => bs = []
  | .fail e => e ≠ .again

/-- One of the outcomes `read` came to see is such an end. -/
def Ended (os : List RecvOutcome) (f : Fill) : Prop := ∃ o ∈ os.take f.calls.length, Ends o

/-- With `room` bytes to fill: the bytes of an open connection fill them, and the `recv` that is
then asked for none returns 0. -/
def Overfills : Nat → List RecvOutcome → Prop
  | room, .data (b :: bs) :: os => room = 0 ∨ Overfills (room - (b :: bs).length) os
  | _, _ => False

theorem take_eq_nil {bs : List UInt8} {n : Nat} (h : bs.take n = []) : bs = [] ∨ n = 0 := by
  cases bs with
  | nil => exact .inl rfl
  | cons b bs =>
    cases n with
    | zero => exact .inr rfl
    | succ n => cases h

/-- The room left by what fits of some bytes. -/
theorem room_receive (r : Reader) (bs : List UInt8) :
    (r.receive (bs.take r.room) (List.length_take_le _ _)).room = r.room - bs.length := by
  rw [Reader.receive_room, List.length_take]
  omega

theorem ended_or_overfills (os : List RecvOutcome) (r : Reader)
    (h : (readLoop os r).ret = false) : Ended os (readLoop os r) ∨ Overfills r.room os := by
  induction os generalizing r with
  | nil => cases h
  | cons o os ih =>
    cases o with
    | fail e =>
      rw [readLoop_fail] at h ⊢
      have he : e ≠ .again := by
        rintro rfl
        cases h
      exact .inl ⟨.fail e, List.mem_cons_self, he⟩
    | data bs =>
      by_cases hb : bs.take r.room = []
      · rw [readLoop_nothing r bs os hb]
        rcases take_eq_nil hb with rfl | hroom
        · exact .inl ⟨.data [], List.mem_cons_self, rfl⟩
        · cases bs with
          | nil => exact .inl ⟨.data [], List.mem_cons_self, rfl⟩
          | cons b bs => exact .inr (.inl hroom)
      · rw [readLoop_bytes r bs os hb] at h ⊢
        cases bs with
        | nil => exact absurd List.take_nil hb
        | cons b bs =>
          rcases ih _ h with ⟨o, ho, hends⟩ | hover
          · exact .inl ⟨o, List.mem_cons_of_mem _ ho, hends⟩
          · rw [room_receive] at hover
            exact .inr (.inr hover)

theorem not_ended_of_overfills (os : List RecvOutcome) (r : Reader) (h : Overfills r.room os) :
    (readLoop os r).ret = false ∧ ¬Ended os (readLoop os r) := by
  induction os generalizing r with
  | nil => cases h
  | cons o os ih =>
    cases o with
    | fail e => cases h
    | data bs =>
      cases bs with
      | nil => cases h
      | cons b bs =>
        have hopen : ¬Ends (.data (b :: bs)) := nofun
        by_cases hroom : r.room = 0
        · have hb : (b :: bs).take r.room = [] := by rw [hroom, List.take_zero]
          rw [readLoop_nothing r _ os hb]
          refine ⟨rfl, ?_⟩
          rintro ⟨o, ho, hends⟩
          obtain rfl : o = .data (b :: bs) := by simpa using ho
          exact hopen hends
        · have hb : (b :: bs).take r.room ≠ [] := by
            intro hb
            rcases take_eq_nil hb with hnil | hzero
            · cases hnil
            · exact hroom hzero
          have hover : Overfills (r.room - (b :: bs).length) os := h.resolve_left hroom
          rw [← room_receive] at hover
          obtain ⟨hret, hended⟩ := ih _ hover
          rw [readLoop_bytes r _ os hb]
          refine ⟨hret, ?_⟩
          rintro ⟨o, ho, hends⟩
          rcases List.mem_cons.mp ho with rfl | ho
          · exact hopen hends
          · exact hended ⟨o, ho, hends⟩

/-- `read` returns `false` for no other reason than a buffer full on entry, the end of the stream or
an error just when the bytes of an open connection do not fill the buffer and `recv` is asked once
more; what it read is in the buffer in any case. -/
theorem read_false_iff (os : List RecvOutcome) (r : Reader) :
    ((read os r).ret = false → r.line.readIdx = readBufferSize ∨ Ended os (read os r)) ∧
        (read os r).reader.line.readIdx ≤ readBufferSize ∧
        (read os r).reader.line.readBuf.take (read os r).reader.line.readIdx =
          r.line.readBuf.take r.line.readIdx ++ received r.sockfd (read os r).calls ↔
      r.line.readIdx = readBufferSize ∨ ¬Overfills r.room os := by
  have hidx : r.line.readIdx ≤ r.line.readBuf.length := by
    rw [r.size]
    exact r.fits
  have hbytes : (read os r).reader.line.readBuf.take (read os r).reader.line.readIdx =
      r.line.readBuf.take r.line.readIdx ++ received r.sockfd (read os r).calls := by
    rw [read_receive]
    exact take_overwrite hidx
  have hfits := r.fits
  constructor
  · rintro ⟨hret, -⟩
    by_cases hfull : r.line.readIdx ≥ readBufferSize
    · exact .inl (Nat.le_antisymm hfits hfull)
    · refine .inr fun hover => ?_
      obtain ⟨hfalse, hended⟩ := not_ended_of_overfills os r hover
      simp only [read, if_neg hfull] at hret
      rcases hret hfalse with hidx | h
      · exact hfull (Nat.le_of_eq hidx.symm)
      · exact hended h
  · intro hcond
    refine ⟨fun hret => ?_, (read os r).reader.fits, hbytes⟩
    rcases hcond with hfull | hover
    · exact .inl hfull
    · by_cases hfull : r.line.readIdx ≥ readBufferSize
      · exact .inl (Nat.le_antisymm hfits hfull)
      · simp only [read, if_neg hfull] at hret ⊢
        exact .inr ((ended_or_overfills os r hret).resolve_right hover)

/-- A connection nothing has come over yet. -/
def fresh (sockfd : Int) : Reader where
  sockfd := sockfd
  line := LineBuf.cleared readBufferSize
  size := List.length_replicate
  fits := Nat.zero_le _

/-- A buffer's worth of bytes, and one more. -/
def overfull : List RecvOutcome := [.data (List.replicate readBufferSize 97), .data [97]]

theorem read_false_full :
    ¬(((read overfull (fresh 5)).ret = false →
          (fresh 5).line.readIdx = readBufferSize ∨ Ended overfull (read overfull (fresh 5))) ∧
        (read overfull (fresh 5)).reader.line.readIdx ≤ readBufferSize ∧
        (read overfull (fresh 5)).reader.line.readBuf.take
            (read overfull (fresh 5)).reader.line.readIdx =
          (fresh 5).line.readBuf.take (fresh 5).line.readIdx ++
            received (fresh 5).sockfd (read overfull (fresh 5)).calls) := by
  have hover : Overfills (fresh 5).room overfull := by
    refine .inr (.inl ?_)
    rw [← List.replicate_succ, List.length_replicate]
    rfl
  obtain ⟨hfalse, hended⟩ := not_ended_of_overfills overfull (fresh 5) hover
  rintro ⟨hret, -⟩
  rcases hret hfalse with hfull | h
  · cases hfull
  · exact hended h

/-! ## Beside and above the loop -/

/-- `conn::read_clt`, whose loop tests the buffer at each turn, reports it full. -/
theorem readClt_full (fd : Int) (w : Nat) (os : List RecvOutcome) {buf : List UInt8} {idx : Nat}
    (hidx : idx ≤ Springsnail.bufSize) (h : Overfills (Springsnail.bufSize - idx) os) :
    (Springsnail.readLoop fd w os buf idx).code = .bufferFull := by
  induction os generalizing buf idx with
  | nil => cases h
  | cons o os ih =>
    cases o with
    | fail e => cases h
    | data bs =>
      cases bs with
      | nil => cases h
      | cons b bs =>
        unfold Springsnail.readLoop
        by_cases hfull : Springsnail.bufSize ≤ idx
        · rw [if_pos hfull]
        · have hroom : Springsnail.bufSize - idx ≠ 0 := by omega
          obtain ⟨n, hn⟩ := Nat.exists_eq_succ_of_ne_zero hroom
          have hover := h.resolve_left hroom
          have hle := List.length_take_le (Springsnail.bufSize - idx) (b :: bs)
          have hleft : Springsnail.bufSize - (idx + ((b :: bs).take n.succ).length) =
              Springsnail.bufSize - idx - (b :: bs).length := by
            rw [List.length_take]
            omega
          rw [if_neg hfull]
          simp only [recv, hn, Nat.succ_eq_add_one, List.take_succ_cons] at hover hle hleft ⊢
          exact ih (by omega) (hleft ▸ hover)

/-- What `main`'s model of the loop goes by. -/
def seen : RecvOutcome → MainLoop.Recv
  | .data bs => .bytes bs.length
  | .fail .again => .again
  | .fail _ => .fail

theorem readLoop_main (os : List RecvOutcome) (r : Reader) :
    MainLoop.readLoop r.line.readIdx (os.map seen ++ [.again]) =
      some ((readLoop os r).ret, (readLoop os r).reader.line.readIdx) := by
  induction os generalizing r with
  | nil => rfl
  | cons o os ih =>
    cases o with
    | fail e => cases e <;> rfl
    | data bs =>
      have hlen : (bs.take r.room).length = min bs.length (readBufferSize - r.line.readIdx) := by
        rw [List.length_take, Nat.min_comm]
        rfl
      by_cases hb : bs.take r.room = []
      · rw [hb] at hlen
        rw [readLoop_nothing r bs os hb]
        simp only [List.map_cons, List.cons_append, seen, MainLoop.readLoop, ← hlen,
          List.length_nil, if_true]
      · have hne : (bs.take r.room).length ≠ 0 := fun h => hb (List.eq_nil_of_length_eq_zero h)
        rw [readLoop_bytes r bs os hb, ← ih]
        simp only [List.map_cons, List.cons_append, seen, MainLoop.readLoop, ← hlen, if_neg hne]
        rfl

/-- `main` sees what `read` returns. -/
theorem read_main (os : List RecvOutcome) (r : Reader) {s : MainLoop.Server} {fd : Int}
    (h : (s.users fd).readIdx = r.line.readIdx) :
    MainLoop.read s fd (os.map seen ++ [.again]) =
      some ((read os r).ret,
        s.setUser fd { s.users fd with readIdx := (read os r).reader.line.readIdx }) := by
  unfold MainLoop.read read
  by_cases hfull : r.line.readIdx ≥ readBufferSize
  · have hsame : s.setUser fd { s.users fd with readIdx := r.line.readIdx } = s := by
      simp only [← h, MainLoop.Server.setUser, Function.update_eq_self]
    simp only [h, if_pos hfull, hsame]
  · simp only [h, if_neg hfull, readLoop_main]
    rfl

/-- So a connection whose bytes fill the buffer is closed, whatever they ask for. -/
theorem overfilled_closed (semValueMax : Nat) (os : List RecvOutcome) (r : Reader)
    {s : MainLoop.Server} {e : MainLoop.Event} {p : MainLoop.Replies}
    (h : (s.users e.fd).readIdx = r.line.readIdx) (hover : Overfills r.room os)
    (hdown : e.down = false) (hin : e.epollin = true) (hp : p.recvs = os.map seen ++ [.again]) :
    MainLoop.handleClient semValueMax s e p =
      some ((s.setUser e.fd { s.users e.fd with
        readIdx := (read os r).reader.line.readIdx }).closeConn e.fd) := by
  have hret : (read os r).ret = false := by
    unfold read
    split
    · rfl
    · exact (not_ended_of_overfills os r hover).1
  simp only [MainLoop.handleClient, hdown, hin, hp, read_main os r h, hret, Bool.false_eq_true,
    if_false, if_true, Option.map_some]

end HttpConnRead
end Unpvol1
