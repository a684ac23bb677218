import Unpvol1.Lib.CString
import Unpvol1.Lib.LittleEndian
import Mathlib.Data.List.Forall2
import Mathlib.Tactic.Common

/-!
# Unp.IfiScan

The second loop of `get_ifi_info` (`17chp/get_ifi_info.c`): the records that `SIOCGIFCONF` left in
`buf` become a list of `struct ifi_info`. None of `IPV6`, `HAVE_SOCKADDR_SA_LEN`,
`HAVE_SOCKADDR_DL_STRUCT` and `HAVE_STRUCT_IFREQ_IFR_MTU` is defined, as on Linux.

* `body`, `scan`  — the loop; `none` when it reads outside of its memory.
* `scan_visited`  — it stops every 32 bytes.
* `Lists`         — what it should do: stop at each record, and list those that are wanted.
* `lists_iff`     — it does when there is no record.
-/

namespace Unpvol1
namespace IfiScan

def IFNAMSIZ : Nat := 16
def IFI_NAME : Nat := 16

/-- `sizeof(struct sockaddr)`, which is `sizeof(struct sockaddr_in)` too. -/
def SOCKADDR : Nat := 16
def SOCKADDR_IN6 : Nat := 28

/-- `sizeof(struct ifreq)`. -/
def IFREQ : Nat := 40

def AF_INET : Nat := 2
def AF_INET6 : Nat := 10
def IFF_UP : Nat := 1
def IFF_BROADCAST : Nat := 2
def IFF_POINTOPOINT : Nat := 16
def IFI_ALIAS : Nat := 1
def colon : UInt8 := 58

inductive Request where
  | SIOCGIFFLAGS
  | SIOCGIFBRDADDR
  | SIOCGIFDSTADDR

/-- The arguments, and the kernel: what a call of `ioctl` leaves in the `struct ifreq`. -/
structure Call where
  family : Int
  doaliases : Int
  ioctl : Request → List UInt8 → List UInt8

/-- `struct ifi_info`; an address that was not set is a null pointer. -/
structure Ifi where
  name : List UInt8
  index : Int
  mtu : Int
  hlen : Nat
  flags : Nat
  myflags : Nat
  addr : Option (List UInt8)
  brdaddr : Option (List UInt8)
  dstaddr : Option (List UInt8)
deriving DecidableEq

/-- `ifis` is the list from `ifihead` on; `visited` are the values of `ifr`, from `buf` on. -/
structure Scan where
  buf : List UInt8
  lastname : List UInt8
  ifis : List Ifi
  visited : List Nat
deriving DecidableEq

/-- `n` bytes from `off` on, if they are in `mem`. -/
def bytes (mem : List UInt8) (off n : Nat) : Option (List UInt8) :=
  if off + n ≤ mem.length then some ((mem.drop off).take n) else none

def saFamily (buf : List UInt8) (ifr : Nat) : Option Nat :=
  (bytes buf (ifr + IFNAMSIZ) 2).map leNat

/-- `len`, by the family of the address: without `IPV6` there is only the default. -/
def addrLen (_family : Nat) : Nat := SOCKADDR

def ifrFlags (ifrcopy : List UInt8) : Nat := leNat ((ifrcopy.drop IFNAMSIZ).take 2)

/-- `strncmp( a, b, n ) == 0`. -/
def strncmpEq (a b : List UInt8) (n : Nat) : Bool := cut (a.take n) = cut (b.take n)

/-- The string at `i` ends at its first colon. -/
def cutColon (mem : List UInt8) (i : Nat) : List UInt8 :=
  match strchr mem i colon with
  | some cptr => mem.set cptr 0
  | none => mem

/-- `if (flags & flag) ioctl(sockfd, request, &ifrcopy)`, with the address it returned. -/
def address (c : Call) (request : Request) (flag flags size : Nat) (ifrcopy : List UInt8) :
    Option (Option (List UInt8) × List UInt8) :=
  if flags &&& flag = 0 then some (none, ifrcopy)
  else
    let ifrcopy := c.ioctl request ifrcopy
    (bytes ifrcopy IFNAMSIZ size).map fun addr => (some addr, ifrcopy)

/-- The addresses, by the family. The ones of `AF_INET6` are longer than a `struct ifreq` has room
for. -/
def addresses (c : Call) (buf : List UInt8) (ifr : Nat) (ifrcopy : List UInt8) (ifi : Ifi) :
    Option Ifi := do
  let family ← saFamily buf ifr
  if family = AF_INET then
    let addr ← bytes buf (ifr + IFNAMSIZ) SOCKADDR
    let (brdaddr, ifrcopy) ←
      address c .SIOCGIFBRDADDR IFF_BROADCAST ifi.flags SOCKADDR ifrcopy
    let (dstaddr, _) ← address c .SIOCGIFDSTADDR IFF_POINTOPOINT ifi.flags SOCKADDR ifrcopy
    some { ifi with addr := some addr, brdaddr := brdaddr, dstaddr := dstaddr }
  else if family = AF_INET6 then
    let addr ← bytes buf (ifr + IFNAMSIZ) SOCKADDR_IN6
    let (dstaddr, _) ← address c .SIOCGIFDSTADDR IFF_POINTOPOINT ifi.flags SOCKADDR_IN6 ifrcopy
    some { ifi with addr := some addr, dstaddr := dstaddr }
  else some ifi

/-- The body of the loop, behind the step of `ptr`. -/
def body (c : Call) (ifr family : Nat) (s : Scan) : Option Scan :=
  if (family : Int) ≠ c.family then some s
  else if 0 ∉ s.buf.drop ifr ∧ colon ∉ s.buf.drop ifr then none
  else
    let buf := cutColon s.buf ifr
    let name := (buf.drop ifr).take IFNAMSIZ
    let same := strncmpEq s.lastname name IFNAMSIZ
    if same = true ∧ c.doaliases = 0 then some { s with buf := buf }
    else
      match bytes buf ifr IFREQ with
      | none => none
      | some ifrcopy =>
        let ifrcopy := c.ioctl .SIOCGIFFLAGS ifrcopy
        let flags := ifrFlags ifrcopy
        if flags &&& IFF_UP = 0 then some { s with buf := buf, lastname := name }
        else
          (addresses c buf ifr ifrcopy
            { name := name.set (IFI_NAME - 1) 0
              index := 0
              mtu := 0
              hlen := 0
              flags := flags
              myflags := if same then IFI_ALIAS else 0
              addr := none
              brdaddr := none
              dstaddr := none }).map fun ifi =>
            { s with buf := buf, lastname := name, ifis := s.ifis ++ [ifi] }

/-- The loop from `ptr` on. -/
def scan (c : Call) (ifcLen ptr : Nat) (s : Scan) : Option Scan :=
  if ptr < ifcLen then do
    let family ← saFamily s.buf ptr
    let s ← body c ptr family { s with visited := s.visited ++ [ptr] }
    scan c ifcLen (ptr + (IFNAMSIZ + addrLen family)) s
  else some s
termination_by ifcLen - ptr
decreasing_by
  simp only [IFNAMSIZ]
  omega

/-- Before the loop. What stands behind the 0 of `lastname` is not looked at. -/
def start (buf : List UInt8) : Scan where
  buf := buf
  lastname := [0]
  ifis := []
  visited := []

/-! ## What it should do -/

/-- A record: `ifr_name`, `ifr_addr`, and what a `struct ifreq` has behind them. -/
structure Ifreq where
  name : List UInt8
  addr : List UInt8
  rest : List UInt8
  name_length : name.length = 16
  addr_length : addr.length = 16
  rest_length : rest.length = 8

def Ifreq.bytes (r : Ifreq) : List UInt8 := r.name ++ r.addr ++ r.rest

def Ifreq.family (r : Ifreq) : Nat := leNat (r.addr.take 2)

/-- What is asked about the interface: its name is the one up to the colon. -/
def Ifreq.flags (c : Call) (r : Ifreq) : Nat :=
  ifrFlags (c.ioctl .SIOCGIFFLAGS (cutColon r.name 0 ++ r.addr ++ r.rest))

/-- Of the family, and up. -/
def Ifreq.wanted (c : Call) (r : Ifreq) : Bool :=
  (r.family : Int) = c.family ∧ r.flags c &&& IFF_UP ≠ 0

/-- An entry for a record: it has the name of the interface, and its flags. -/
def IsEntry (c : Call) (r : Ifreq) (ifi : Ifi) : Prop :=
  cut ifi.name = (cut (cutColon r.name 0)).take (IFI_NAME - 1) ∧ ifi.flags = r.flags c

/-- `buf` after `SIOCGIFCONF`: the records, and the rest of what was allocated. -/
def image (records : List Ifreq) (rest : List UInt8) : List UInt8 :=
  (records.map Ifreq.bytes).flatten ++ rest

/-- `ifc_len`. -/
def ifcLen (records : List Ifreq) : Nat := IFREQ * records.length

/-- Where the records start. -/
def starts (records : List Ifreq) : List Nat := (List.range records.length).map (IFREQ * ·)

/-- The scan ends. It has stopped at the start of each record and nowhere else, and with aliases it
has listed, in order, the records that are wanted. -/
def Lists (c : Call) (records : List Ifreq) (rest : List UInt8) : Prop :=
  ∃ s, scan c (ifcLen records) 0 (start (image records rest)) = some s ∧
    s.visited = starts records ∧
    (c.doaliases ≠ 0 → List.Forall₂ (IsEntry c) (records.filter (Ifreq.wanted c)) s.ifis)

section
variable {c : Call} {s s' : Scan}

/-! ## Where it stops -/

theorem body_visited {ifr family : Nat} (h : body c ifr family s = some s') :
    s'.visited = s.visited := by
  simp only [body] at h
  split at h
  · cases h; rfl
  · split at h
    · cases h
    · split at h
      · cases h; rfl
      · split at h
        · cases h
        · split at h
          · cases h; rfl
          · obtain ⟨ifi, _, rfl⟩ := Option.map_eq_some_iff.mp h
            rfl

/-- The number of stops in a stretch of the buffer. -/
def stops (len : Nat) : Nat := (len + 31) / 32

/-- Whatever is in the buffer, the loop stops at every 32nd byte. -/
theorem scan_visited {len ptr : Nat} (h : scan c len ptr s = some s') :
    s'.visited = s.visited ++ (List.range (stops (len - ptr))).map (ptr + 32 * ·) := by
  induction ptr, s using scan.induct len with
  | case1 ptr s hlt ih =>
    rw [scan, if_pos hlt] at h
    obtain ⟨family, _, h⟩ := Option.bind_eq_some_iff.mp h
    obtain ⟨s₁, hbody, h⟩ := Option.bind_eq_some_iff.mp h
    have hstops : stops (len - ptr) = stops (len - (ptr + 32)) + 1 := by
      simp only [stops]
      omega
    rw [ih family s₁ h, body_visited hbody, hstops, List.range_succ_eq_map, List.map_cons,
      List.map_map, List.append_assoc, List.singleton_append]
    refine congrArg (s.visited ++ ptr :: ·) (List.map_congr_left fun k _ => ?_)
    simp only [IFNAMSIZ, addrLen, SOCKADDR, Function.comp_apply]
    omega
  | case2 ptr s hge =>
    rw [scan, if_neg hge] at h
    cases h
    have hnone : stops (len - ptr) = 0 := by
      simp only [stops]
      omega
    rw [hnone, List.range_zero, List.map_nil, List.append_nil]

/-- There is a stop too many as soon as there is a record. -/
theorem stops_eq_iff (n : Nat) : stops (IFREQ * n) = n ↔ n = 0 := by
  simp only [stops, IFREQ]
  omega

/-- The scan stops at the records, and lists those that are wanted, just when there are none. -/
theorem lists_iff (c : Call) (records : List Ifreq) (rest : List UInt8) :
    Lists c records rest ↔ records = [] := by
  constructor
  · rintro ⟨s, hscan, hvisited, _⟩
    have hlen := congrArg List.length ((scan_visited hscan).symm.trans hvisited)
    rw [starts, List.length_map, List.length_append, List.length_map, List.length_range,
      List.length_range] at hlen
    refine List.length_eq_zero_iff.mp ((stops_eq_iff _).mp ?_)
    simpa [start, ifcLen] using hlen
  · rintro rfl
    refine ⟨start (image [] rest), ?_, rfl, fun _ => .nil⟩
    rw [scan]
    rfl

end

/-! ## Two interfaces -/

/-- A name of at most 16 bytes, padded. -/
def ifrName (name : List UInt8) : List UInt8 := (name ++ List.replicate 16 0).take 16

/-- An interface with an IPv4 address. -/
def inet (name : List UInt8) (a b d e : UInt8) : Ifreq where
  name := ifrName name
  addr := [2, 0, 0, 0, a, b, d, e, 0, 0, 0, 0, 0, 0, 0, 0]
  rest := [0, 0, 0, 0, 0, 0, 0, 0]
  name_length := by simp [ifrName]
  addr_length := rfl
  rest_length := rfl

/-- `lo` and `eth0`. -/
def lo_eth0 : List Ifreq := [inet [108, 111] 127 0 0 1, inet [101, 116, 104, 48] 10 0 0 2]

/-- All that is asked for is up, and has no other flags. -/
def allUp : Call := ⟨AF_INET, 1, fun _ ifr => overwrite ifr IFNAMSIZ [1, 0]⟩

/-- `eth0` is missed. -/
theorem scan_lo_eth0 :
    ∃ s, scan allUp (ifcLen lo_eth0) 0 (start (image lo_eth0 (List.replicate 400 0))) = some s ∧
      s.visited = [0, 32, 64] ∧ s.ifis.map (cut ·.name) = [[108, 111]] := by
  decide +kernel

/-- Both are wanted; the scan stops between them and in the middle of the second, and lists one. -/
theorem not_lists :
    lo_eth0.all (Ifreq.wanted allUp) = true ∧ allUp.doaliases ≠ 0 ∧
      ¬Lists allUp lo_eth0 (List.replicate 400 0) := by
  refine ⟨by decide, by decide, ?_⟩
  rintro ⟨s, hscan, hvisited, _⟩
  obtain ⟨s₀, hscan₀, hvisited₀, _⟩ := scan_lo_eth0
  rw [hscan₀] at hscan
  cases hscan
  rw [hvisited₀] at hvisited
  exact absurd hvisited (by decide)

end IfiScan
end Unpvol1
