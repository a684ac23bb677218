import Unpvol1.Lib.LittleEndian
import Unpvol1.Lib.Machine
import Unpvol1.Lib.Socket

/-!
# Springsnail.Parent

The springsnail parent: the table of sub-processes and the branches of `processpool::run_parent`
that read or write it, with `get_most_free_srv` and, for the other end of the pipes,
`notify_parent_busy_ratio`.

A child reports by sending the first byte of an `int`; the parent receives into a zeroed `int`.
The table's field says that the parent's ends of the pipes are distinct, as the constructor's
`socketpair` calls make them.

Left out: the log texts, the closing of a dead child's pipe and the `kill` calls on a signal.
-/

namespace Unpvol1
namespace Springsnail

/-- `class process`, as the parent sees it: `pipefd` is `m_pipefd[0]`. -/
structure Process where
  busyRatio : Int
  pid : Int
  pipefd : Int
  deriving DecidableEq, Repr

structure Parent where
  procs : List Process
  distinct : (procs.map Process.pipefd).Nodup
  stop : Bool
  /-- The indices of the children that were sent a new connection so far. -/
  notified : List Nat

/-- `notify_parent_busy_ratio`: the bytes the pipe takes. -/
def notifyParentBusyRatio (cnt : Nat) (o : SendOutcome) : List UInt8 :=
  match send 1 o with
  | .took n => [lowByte cnt].take n
  | .err _ => []

namespace Parent

/-- The loop of `get_most_free_srv` from index `i` on. -/
def mostFreeLoop : List Process → Nat → Int → Nat → Nat
  | [], _, _, idx => idx
  | p :: ps, i, ratio, idx =>
    if p.busyRatio < ratio then mostFreeLoop ps (i + 1) p.busyRatio i
    else mostFreeLoop ps (i + 1) ratio idx

def getMostFreeSrv : List Process → Nat
  | [] => 0
  | p :: ps => mostFreeLoop (p :: ps) 0 p.busyRatio 0

/-- Store a ratio with the first sub-process whose pipe is `sockfd`. -/
def setRatio (sockfd : Int) (busyRatio : Int) : List Process → List Process
  | [] => []
  | p :: ps =>
    if sockfd = p.pipefd then { p with busyRatio := busyRatio } :: ps
    else p :: setRatio sockfd busyRatio ps

/-- The loop over the table for one child that `waitpid` returned. -/
def markDead (pid : Int) (ps : List Process) : List Process :=
  ps.map fun p => if p.pid = pid then { p with pid := -1 } else p

theorem setRatio_pipefd (sockfd busyRatio : Int) (ps : List Process) :
    (setRatio sockfd busyRatio ps).map Process.pipefd = ps.map Process.pipefd := by
  induction ps with
  | nil => rfl
  | cons p ps ih =>
    simp only [setRatio]
    split
    · rfl
    · simp only [List.map_cons, ih]

theorem markDead_pipefd (pid : Int) (ps : List Process) :
    (markDead pid ps).map Process.pipefd = ps.map Process.pipefd := by
  simp only [markDead, List.map_map]
  refine List.map_congr_left fun p _ => ?_
  show (if p.pid = pid then { p with pid := -1 } else p).pipefd = p.pipefd
  split <;> rfl

/-- The bytes the `int` of a report receives, when the branch stores it: an `EAGAIN` stores too,
with no byte written. -/
def reportBytes (o : RecvOutcome) : Option (List UInt8) :=
  match recv 4 o with
  | .err .again => some []
  | .err _ => none
  | .got [] => none
  | .got bs => some bs

/-- The branch of `run_parent` for a readable pipe. -/
def readReport (sockfd : Int) (o : RecvOutcome) (s : Parent) : Parent :=
  match reportBytes o with
  | none => s
  | some bs =>
    { s with
      procs := setRatio sockfd (leInt32 bs) s.procs
      distinct := by rw [setRatio_pipefd]; exact s.distinct }

/-- The branch of `run_parent` for the listening socket. -/
def announce (s : Parent) : Parent :=
  { s with notified := s.notified ++ [getMostFreeSrv s.procs] }

/-- The `waitpid` loop of the `SIGCHLD` branch. -/
def reap : List Int → Parent → Parent
  | [], s => s
  | pid :: pids, s =>
    reap pids
      { s with
        procs := markDead pid s.procs
        distinct := by rw [markDead_pipefd]; exact s.distinct }

/-- The `SIGCHLD` branch: the parent stops once every child is recorded dead. -/
def sigchld (pids : List Int) (s : Parent) : Parent :=
  let s := reap pids s
  { s with stop := s.procs.all fun p => p.pid = -1 }

end Parent

inductive ParentInput where
  | announce
  | report (sockfd : Int) (o : RecvOutcome)
  | sigchld (pids : List Int)

def parent : Machine Parent ParentInput where
  step s
    | .announce => s.announce
    | .report sockfd o => s.readReport sockfd o
    | .sigchld pids => s.sigchld pids
  ok _ _ := True

end Springsnail
end Unpvol1
