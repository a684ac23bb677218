import Unpvol1.Lib.CString
import Unpvol1.Lib.Framing
import Unpvol1.Lib.LineScan
import Unpvol1.Lib.Socket

/-!
# Pool.CgiChild

A connection of the CGI child (`run_child` of `15-2pool_cgi.cpp`): its `client_data`, and the loop
that receives until what has come ends in CR LF and then takes it for the name of a program.

* `ClientData` — the buffer and its index, which stay within it.
* `readLoop`   — one readable event; `serve` — the events of a connection until it is closed.
* `serve_name` — the program is named by the first arrival that ends in CR LF.
* `named_iff`  — the exact condition: the end of the first line is the end of a `recv`.
-/

namespace Unpvol1
namespace CgiChild

open Framing

def BUFFER_SIZE : Nat := 1024

structure ClientData where
  buf : List UInt8
  readIdx : Nat
  size : buf.length = BUFFER_SIZE
  fits : readIdx ≤ BUFFER_SIZE - 1

/-- `access( file_name, F_OK )` is not -1, and `fork` is not. -/
structure Env where
  access : List UInt8 → Bool
  fork : Bool

/-- What became of a connection: `checked` gives the name that `access` was called with, and the
one `execl` was called with in the child of `fork`, if it came to that. -/
inductive Outcome where
  | waiting (c : ClientData)
  | closed
  | checked (fileName : List UInt8) (executed : Option (List UInt8))

namespace ClientData

/-- After `accept`. -/
def accepted : ClientData where
  buf := List.replicate BUFFER_SIZE 0
  readIdx := 0
  size := List.length_replicate
  fits := Nat.zero_le _

/-- `BUFFER_SIZE-1-idx` -/
def room (c : ClientData) : Nat := BUFFER_SIZE - 1 - c.readIdx

/-- `recv` to `buf + idx`, and `read_idx += ret`. -/
def receive (c : ClientData) (bs : List UInt8) (h : bs.length ≤ c.room) : ClientData where
  buf := overwrite c.buf c.readIdx bs
  readIdx := c.readIdx + bs.length
  size := by
    have hsize := c.size
    have hfits := c.fits
    simp only [room, BUFFER_SIZE] at h hsize hfits ⊢
    rw [overwrite_length_within (by omega), hsize]
  fits := by
    have hfits := c.fits
    simp only [room] at h
    omega

/-- The test behind `recv` finds the end of a line. -/
def lineEnds (c : ClientData) : Bool :=
  ¬(c.readIdx < 2 ∨ c.buf.getD (c.readIdx - 2) 0 ≠ cr ∨ c.buf.getD (c.readIdx - 1) 0 ≠ lf)

/-- `buf` as a string, behind `buf[read_idx-2] = '\0'`. -/
def fileName (c : ClientData) : List UInt8 := cstr (c.buf.set (c.readIdx - 2) 0) 0

end ClientData

def request (env : Env) (fileName : List UInt8) : Outcome :=
  if env.access fileName = false then .checked fileName none
  else if env.fork = false then .checked fileName none
  else .checked fileName (some fileName)

/-- The `while( true )` of a readable event. -/
def readLoop (env : Env) : List RecvOutcome → ClientData → Outcome
  | [], c => .waiting c
  | o :: os, c =>
    match h : recv c.room o with
    | .err .again => .waiting c
    | .err _ => .closed
    | .got [] => .closed
    | .got (b :: bs) =>
      let c := c.receive (b :: bs) (recv_length h)
      if c.lineEnds = false then readLoop env os c else request env c.fileName

/-- The readable events of a connection. -/
def serve (env : Env) : List (List RecvOutcome) → ClientData → Outcome
  | [], c => .waiting c
  | os :: events, c =>
    match readLoop env os c with
    | .waiting c => serve env events c
    | o => o

/-- A stream cut into what `recv` brings, event by event. -/
abbrev Pieces := { events : List (List (List UInt8)) // ∀ ps ∈ events, ∀ p ∈ ps, p ≠ [] }

def Pieces.stream (f : Pieces) : List UInt8 := f.1.flatten.flatten

def Pieces.outcomes (f : Pieces) : List (List RecvOutcome) := f.1.map fun ps => ps.map .data

def Outcome.fileName : Outcome → Option (List UInt8)
  | .checked fileName _ => some fileName
  | _ => none

def Outcome.executed : Outcome → Option (List UInt8)
  | .checked _ executed => executed
  | _ => none

def crlfBytes : List UInt8 := [cr, lf]

/-- The bytes before the first CR LF of the stream, if that is within what the buffer holds. -/
def firstLine (stream : List UInt8) : Option (List UInt8) :=
  before crlfBytes (stream.take (BUFFER_SIZE - 1))

/-- The program that is checked, and executed if it exists and `fork` succeeds, is named by the
first line; without a first line there is none. -/
structure Named (env : Env) (f : Pieces) : Prop where
  checks : (serve env f.outcomes .accepted).fileName = firstLine f.stream
  executes : (serve env f.outcomes .accepted).executed =
    (firstLine f.stream).filter fun name => env.access name && env.fork

/-- A `recv` returns the last byte of the first line with its CR LF, as the last of those it
returns, and the line has no NUL. -/
def EndsRecv (f : Pieces) : Prop :=
  ∀ name, firstLine f.stream = some name → 0 ∉ name ∧
    ∃ k ≤ f.1.flatten.length,
      min (BUFFER_SIZE - 1) (f.1.flatten.take k).flatten.length = name.length + 2

section
variable {env : Env} {c : ClientData}

/-! ## The bytes received -/

/-- The bytes in the buffer. -/
def ClientData.bytes (c : ClientData) : List UInt8 := c.buf.take c.readIdx

theorem ClientData.bytes_length (c : ClientData) : c.bytes.length = c.readIdx := by
  have hsize := c.size
  have hfits := c.fits
  simp only [BUFFER_SIZE] at hsize hfits
  rw [bytes, List.length_take, hsize]
  omega

theorem receive_bytes {bs : List UInt8} (h : bs.length ≤ c.room) :
    (c.receive bs h).bytes = c.bytes ++ bs := by
  have hsize := c.size
  have hfits := c.fits
  simp only [BUFFER_SIZE] at hsize hfits
  exact take_overwrite (by omega)

/-- A piece fills the room that is left. -/
theorem bytes_room (c : ClientData) (p : List UInt8) :
    c.bytes ++ p.take c.room = (c.bytes ++ p).take (BUFFER_SIZE - 1) := by
  have hfits : c.bytes.length ≤ BUFFER_SIZE - 1 := c.bytes_length.symm ▸ c.fits
  rw [List.take_append, List.take_of_length_le hfits, c.bytes_length]
  rfl

theorem suffix_two {a b : UInt8} {r : List UInt8} :
    [a, b] <:+ r ↔ 2 ≤ r.length ∧ r.getD (r.length - 2) 0 = a ∧ r.getD (r.length - 1) 0 = b := by
  constructor
  · rintro ⟨l, rfl⟩
    refine ⟨by simp, ?_, ?_⟩
    · simp
    · simp
  · rintro ⟨hlen, ha, hb⟩
    refine ⟨r.take (r.length - 2), ?_⟩
    have hdrop : r.drop (r.length - 2) = [a, b] := by
      have h1 : r.length - 2 < r.length := by omega
      have h2 : r.length - 2 + 1 < r.length := by omega
      rw [List.drop_eq_getElem_cons h1, List.drop_eq_getElem_cons h2,
        List.drop_of_length_le (by omega)]
      have hidx : r.length - 1 = r.length - 2 + 1 := by omega
      rw [List.getD_eq_getElem?_getD, List.getElem?_eq_getElem h1] at ha
      rw [hidx, List.getD_eq_getElem?_getD, List.getElem?_eq_getElem h2] at hb
      exact congrArg₂ (fun x y => [x, y]) ha hb
    rw [← hdrop]
    exact List.take_append_drop _ _

theorem getD_take {l : List UInt8} {i n : Nat} (h : i < n) : (l.take n).getD i 0 = l.getD i 0 := by
  rw [List.getD_eq_getElem?_getD, List.getD_eq_getElem?_getD, List.getElem?_take_of_lt h]

theorem lineEnds_iff (c : ClientData) : c.lineEnds = true ↔ crlfBytes <:+ c.bytes := by
  rw [crlfBytes, suffix_two, c.bytes_length, ClientData.lineEnds, decide_eq_true_eq]
  by_cases h : c.readIdx < 2
  · simp only [h, true_or, not_true_eq_false, false_iff, not_and]
    omega
  · rw [ClientData.bytes, getD_take (by omega), getD_take (by omega)]
    simp only [h, false_or, not_or, not_not]
    exact (and_iff_right (Nat.not_lt.mp h)).symm

/-- The name is what comes before the CR LF that was found, up to a NUL. -/
theorem fileName_eq (h : crlfBytes <:+ c.bytes) :
    c.fileName = cut (c.bytes.take (c.bytes.length - 2)) := by
  have hsize := c.size
  have hfits := c.fits
  have hlen : 2 ≤ c.readIdx := c.bytes_length ▸ h.length_le
  simp only [BUFFER_SIZE] at hsize hfits
  rw [ClientData.fileName, cstr, List.drop_zero, List.set_eq_take_append_cons_drop,
    if_pos (by omega), cut_append_nul, c.bytes_length, ClientData.bytes, List.take_take,
    Nat.min_eq_left (Nat.sub_le _ _)]

/-! ## The loops -/

/-- The outcome is that of a connection that leads to `name`. -/
def Answers (env : Env) (name : Option (List UInt8)) (o : Outcome) : Prop :=
  o.fileName = name ∧ o.executed = name.filter fun name => env.access name && env.fork

theorem request_answers (env : Env) (name : List UInt8) :
    Answers env (some name) (request env name) := by
  unfold request
  cases ha : env.access name with
  | false => exact ⟨rfl, by rw [Option.filter_some, ha]; rfl⟩
  | true =>
    cases hf : env.fork with
    | false => exact ⟨rfl, by rw [Option.filter_some, ha, hf]; rfl⟩
    | true => exact ⟨rfl, by rw [Option.filter_some, ha, hf]; rfl⟩

/-- With no room left, or nothing to receive, `recv` returns 0. -/
theorem readLoop_nothing {p : List UInt8} (h : p.take c.room = []) (os : List RecvOutcome) :
    readLoop env (.data p :: os) c = .closed := by
  have hrecv : recv c.room (.data p) = .got [] := congrArg RecvResult.got h
  unfold readLoop
  split
  · rename_i hr
    rw [hrecv] at hr
    cases hr
  · rfl
  · rfl
  · rename_i hr
    rw [hrecv] at hr
    cases hr

/-- The buffer after a piece has come, as far as there is room. -/
def ClientData.take (c : ClientData) (p : List UInt8) : ClientData :=
  c.receive (p.take c.room) (List.length_take_le _ _)

theorem take_bytes (c : ClientData) (p : List UInt8) :
    (c.take p).bytes = (c.bytes ++ p).take (BUFFER_SIZE - 1) :=
  (receive_bytes (List.length_take_le _ _)).trans (bytes_room c p)

theorem readLoop_piece {p : List UInt8} (h : p.take c.room ≠ []) (os : List RecvOutcome) :
    readLoop env (.data p :: os) c =
      if (c.take p).lineEnds = false then readLoop env os (c.take p)
      else request env (c.take p).fileName := by
  have hrecv : recv c.room (.data p) = .got (p.take c.room) := rfl
  rw [readLoop]
  split
  · rename_i hr
    rw [hrecv] at hr
    cases hr
  · rename_i hr
    rw [hrecv] at hr
    cases hr
  · rename_i hr
    rw [hrecv] at hr
    exact absurd (RecvResult.got.inj hr) h
  · rename_i b rest hr
    have hp : p.take c.room = b :: rest := RecvResult.got.inj hr
    simp only [ClientData.take, hp]

/-- The name that the pieces to come lead to. -/
def nameOf (c : ClientData) (ps : List (List UInt8)) : Option (List UInt8) :=
  ((arrivals (BUFFER_SIZE - 1) c.bytes ps).find? fun u => crlfBytes <:+ u).map fun u =>
    cut (u.take (u.length - 2))

/-- A full buffer stays as it is. -/
theorem nameOf_full (hroom : c.room = 0) (hend : ¬crlfBytes <:+ c.bytes) (ps : List (List UInt8)) :
    nameOf c ps = none := by
  have hsame : ∀ u ∈ arrivals (BUFFER_SIZE - 1) c.bytes ps, u = c.bytes := by
    intro u hu
    rw [arrivals_eq] at hu
    obtain ⟨k, _, rfl⟩ := List.mem_map.mp hu
    rw [← bytes_room, hroom, List.take_zero, List.append_nil]
  rw [nameOf, List.find?_eq_none.mpr]
  · rfl
  · intro u hu
    rw [hsame u hu]
    simpa using hend

theorem nameOf_cons (c : ClientData) (p : List UInt8) (ps : List (List UInt8)) :
    nameOf c (p :: ps) =
      if crlfBytes <:+ (c.take p).bytes then some (c.take p).fileName
      else nameOf (c.take p) ps := by
  rw [nameOf, arrivals, ← take_bytes, List.find?_cons]
  by_cases h : crlfBytes <:+ (c.take p).bytes
  · simp only [h, decide_true, if_true]
    rw [fileName_eq h]
    rfl
  · simp only [h, decide_false, if_false]
    rfl

/-- An event, by induction on its pieces: the connection is answered by the name they lead to, or it
waits for the rest. -/
theorem readLoop_pieces (ps rest : List (List UInt8)) (hps : ∀ p ∈ ps, p ≠ [])
    (hend : ¬crlfBytes <:+ c.bytes) :
    (∃ c', readLoop env (ps.map .data) c = .waiting c' ∧ ¬crlfBytes <:+ c'.bytes ∧
        nameOf c (ps ++ rest) = nameOf c' rest) ∨
      (∀ c', readLoop env (ps.map .data) c ≠ .waiting c') ∧
        Answers env (nameOf c (ps ++ rest)) (readLoop env (ps.map .data) c) := by
  induction ps generalizing c with
  | nil => exact .inl ⟨c, rfl, hend, rfl⟩
  | cons p ps ih =>
    obtain ⟨hp, hps⟩ := List.forall_mem_cons.mp hps
    by_cases hroom : c.room = 0
    · have hnothing : p.take c.room = [] := by rw [hroom, List.take_zero]
      rw [nameOf_full hroom hend, List.map_cons, readLoop_nothing hnothing]
      exact .inr ⟨nofun, rfl, rfl⟩
    · have hsome : p.take c.room ≠ [] := by
        rw [Ne, List.take_eq_nil_iff]
        exact fun h => h.elim hroom hp
      rw [List.map_cons, readLoop_piece hsome, List.cons_append, nameOf_cons]
      by_cases hline : crlfBytes <:+ (c.take p).bytes
      · have hl : (c.take p).lineEnds = true := (lineEnds_iff _).mpr hline
        simp only [hl, Bool.true_eq_false, hline, if_true, if_false]
        refine .inr ⟨fun c' => ?_, request_answers env _⟩
        unfold request
        split
        · nofun
        · split <;> nofun
      · have hl : (c.take p).lineEnds = false :=
          Bool.eq_false_iff.mpr fun h => hline ((lineEnds_iff _).mp h)
        simp only [hl, hline, if_true, if_false]
        exact ih hps hline

/-- A connection, by induction on its events. -/
theorem serve_pieces (events : List (List (List UInt8))) (hne : ∀ ps ∈ events, ∀ p ∈ ps, p ≠ [])
    (hend : ¬crlfBytes <:+ c.bytes) :
    Answers env (nameOf c events.flatten) (serve env (events.map fun ps => ps.map .data) c) := by
  induction events generalizing c with
  | nil => exact ⟨rfl, rfl⟩
  | cons ps events ih =>
    obtain ⟨hps, hne⟩ := List.forall_mem_cons.mp hne
    rw [List.map_cons, List.flatten_cons, serve]
    rcases @readLoop_pieces env c ps events.flatten hps hend with
      ⟨c', hwait, hend', hname⟩ | ⟨hnot, hans⟩
    · rw [hwait, hname]
      exact ih hne hend'
    · split
      · rename_i c' hwait
        exact absurd hwait (hnot c')
      · exact hans

/-- The name is that of the first arrival that ends in CR LF. -/
theorem serve_name (env : Env) (f : Pieces) :
    Answers env (((arrivals (BUFFER_SIZE - 1) [] f.1.flatten).find? fun u => crlfBytes <:+ u).map
      fun u => cut (u.take (u.length - 2))) (serve env f.outcomes .accepted) := by
  have hbytes : ClientData.accepted.bytes = [] := List.take_zero
  have hend : ¬crlfBytes <:+ ClientData.accepted.bytes := by
    rw [hbytes]
    exact fun h => absurd h.length_le (by decide)
  have h := @serve_pieces env .accepted f.1 f.2 hend
  rwa [nameOf, hbytes] at h

/-! ## The first line -/

/-- What is cut out of a longer arrival is not the first line. -/
theorem cut_frame {name u : List UInt8} (hframe : name ++ crlfBytes <+: u)
    (hcut : cut (u.take (u.length - 2)) = name) : u = name ++ crlfBytes ∧ 0 ∉ name := by
  have hnul : (0 : UInt8) ∉ name := hcut ▸ not_mem_cut _
  obtain ⟨r, rfl⟩ := hframe
  refine ⟨?_, hnul⟩
  cases r with
  | nil => exact List.append_nil _
  | cons b r =>
    -- the CR would be a part of the name
    exfalso
    have hlen : (name ++ crlfBytes ++ b :: r).length - 2 = name.length + (r.length + 1) := by
      simp only [List.length_append, List.length_cons, crlfBytes, List.length_nil]
      omega
    have htake : (name ++ crlfBytes ++ b :: r).take (name.length + (r.length + 1)) =
        name ++ cr :: (lf :: b :: r).take r.length := by
      rw [List.append_assoc, List.take_length_add_append]
      rfl
    have hcr : (cr :: (lf :: b :: r).take r.length).takeWhile (· ≠ 0) ≠ [] := by
      rw [List.takeWhile_cons_of_pos (by decide)]
      exact List.cons_ne_nil _ _
    rw [hlen, htake, cut, List.takeWhile_append_of_pos (by
      intro x hx
      have hne : x ≠ 0 := fun he => hnul (he ▸ hx)
      simpa using hne)] at hcut
    exact hcr (List.self_eq_append_right.mp hcut.symm)

theorem mem_arrivals (f : Pieces) {name : List UInt8} (h : firstLine f.stream = some name) :
    name ++ crlfBytes ∈ arrivals (BUFFER_SIZE - 1) [] f.1.flatten ↔
      ∃ k ≤ f.1.flatten.length,
        min (BUFFER_SIZE - 1) (f.1.flatten.take k).flatten.length = name.length + 2 := by
  have hframe : name ++ crlfBytes <+: f.stream.take (BUFFER_SIZE - 1) := before_eq_some h
  rw [arrivals_eq, List.mem_map]
  constructor
  · rintro ⟨k, hk, he⟩
    refine ⟨k + 1, List.mem_range.mp hk, ?_⟩
    have hlen := congrArg List.length he
    rw [List.length_take, List.nil_append, List.length_append] at hlen
    exact hlen
  · rintro ⟨k, hk, hmin⟩
    cases k with
    | zero => exact absurd hmin (by rw [List.take_zero]; simp)
    | succ k =>
      refine ⟨k, List.mem_range.mpr hk, ?_⟩
      -- two prefixes of the stream of one length
      have hmem : ([] ++ (f.1.flatten.take (k + 1)).flatten).take (BUFFER_SIZE - 1) ∈
          arrivals (BUFFER_SIZE - 1) [] f.1.flatten := by
        rw [arrivals_eq]
        exact List.mem_map.mpr ⟨k, List.mem_range.mpr hk, rfl⟩
      have hprefix := arrivals_initial hmem
      have hlen : (([] ++ (f.1.flatten.take (k + 1)).flatten).take (BUFFER_SIZE - 1)).length =
          (name ++ crlfBytes).length := by
        rw [List.length_take, List.nil_append, List.length_append]
        exact hmin
      exact (List.prefix_of_prefix_length_le hprefix hframe (Nat.le_of_eq hlen)).eq_of_length hlen

theorem Answers.iff {name name' : Option (List UInt8)} {o : Outcome} (h : Answers env name o) :
    Answers env name' o ↔ name = name' := by
  constructor
  · intro h'
    exact h.1.symm.trans h'.1
  · rintro rfl
    exact h

/-- The program is named by the first line just when the line has no NUL and its CR LF are the last
bytes that some `recv` returns; or there is no first line. -/
theorem named_iff (env : Env) (f : Pieces) : Named env f ↔ EndsRecv f := by
  have hiff : Named env f ↔ Answers env (firstLine f.stream) (serve env f.outcomes .accepted) :=
    ⟨fun h => ⟨h.checks, h.executes⟩, fun h => ⟨h.1, h.2⟩⟩
  rw [hiff, (serve_name env f).iff]
  cases hline : firstLine f.stream with
  | none =>
    rw [show firstLine f.stream = before crlfBytes (f.1.flatten.flatten.take (BUFFER_SIZE - 1))
      from rfl] at hline
    rw [find_none hline]
    refine iff_of_true rfl fun name hname => ?_
    rw [firstLine, show f.stream = f.1.flatten.flatten from rfl, hline] at hname
    cases hname
  | some name =>
    rw [EndsRecv, hline]
    constructor
    · intro h name' hname'
      cases hname'
      obtain ⟨u, hu, hcut⟩ := Option.map_eq_some_iff.mp h
      obtain ⟨hmem, _, hframe⟩ := find_frame hline hu
      obtain ⟨rfl, hnul⟩ := cut_frame hframe hcut
      exact ⟨hnul, (mem_arrivals f hline).mp hmem⟩
    · intro h
      obtain ⟨hnul, hk⟩ := h name rfl
      rw [(find_arrivals hline).mpr ((mem_arrivals f hline).mpr hk), Option.map_some,
        List.length_append, show crlfBytes.length = 2 from rfl, Nat.add_sub_cancel,
        List.take_left, cut_of_not_mem hnul]

/-- `ls` and a line behind it, in one `recv`. -/
def twoLines : Pieces := ⟨[[[108, 115, 13, 10, 97, 13, 10]]], by simp⟩

/-- The name then is what comes before the last CR LF; cut in other places, the stream names the
first line. -/
theorem not_named :
    let env : Env := ⟨fun _ => true, true⟩
    let cutAfterLine : Pieces := ⟨[[[108, 115, 13, 10], [97, 13, 10]]], by simp⟩
    ¬Named env twoLines ∧ twoLines.stream = cutAfterLine.stream ∧
      (serve env twoLines.outcomes .accepted).executed = some [108, 115, 13, 10, 97] ∧
      (serve env cutAfterLine.outcomes .accepted).executed = some [108, 115] := by
  intro env cutAfterLine
  have hname : (serve env twoLines.outcomes .accepted).executed = some [108, 115, 13, 10, 97] := by
    decide +kernel
  refine ⟨fun h => ?_, rfl, hname, by decide +kernel⟩
  rw [h.executes] at hname
  exact absurd hname (by decide +kernel)

end

end CgiChild
end Unpvol1
