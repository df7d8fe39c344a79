import OpenV.Ipc.Handle

/- The kernel state that the memory syscalls and the page-fault handler read and
   write besides physical memory: the swap map, jobs and their memory limits, the
   process table, and the live memory objects.

   What has no part in them is left out of a process: its trap frame, its IPC and
   signal state, its parent and children. The kernel heap is not modelled; where
   the source checks a heap allocation, the outcome is a parameter. -/
namespace OpenV

/-- A job's memory accounting (`src/posix/job.rs`). -/
structure Job where
  maxMemory : Nat := usizeMax
  currentMemory : Nat := 0
  deriving DecidableEq, Repr

structure SwappedPage where
  data : List (BitVec 8)
  flags : Word
  deriving DecidableEq, Repr

/-- A memory object (`src/mm/vmo.rs`). -/
structure Vmo where
  sizeBytes : Nat
  physicalPages : List Nat
  deriving DecidableEq, Repr

inductive ProcState where
  | running
  | stopped
  | zombie (status : Int)
  deriving DecidableEq, Repr

/-- A process. `root` is the physical address that `satp_val` encodes; `job` lists the job's
number and those of its ancestors. -/
structure Process where
  state : ProcState := .running
  fds : HandleTable := {}
  root : Nat
  nextMmapVa : Nat
  caps : BitVec 64 := 0
  job : List Nat := [0]
  allocatedPages : Nat := 0
  deriving DecidableEq, Repr

def capMmio : BitVec 64 := 1#64 <<< 0
def capDriver : BitVec 64 := 1#64 <<< 6

structure Kern where
  mm : Mm
  /-- swapped-out pages by root and page address -/
  swapMap : Nat → Nat → Option SwappedPage
  jobs : Nat → Job
  /-- the process table; every pid in it is below `nextPid` -/
  procs : Nat → Option Process
  nextPid : Nat
  currentPid : Nat
  /-- the memory objects that some handle refers to -/
  vmos : Nat → Option Vmo
  nextVmo : Nat
  /-- page tables shared by threads; absence means one owner -/
  satpRefcount : Nat → Option Nat

namespace Kern

/-- A command of the memory manager. -/
def onMm {α : Type} (c : Cmd Mm α) : Cmd Kern α := Cmd.zoom Kern.mm (fun m k => { k with mm := m }) c

/-- `get_current_proc`. -/
def currentProc (k : Kern) : Option Process := k.procs k.currentPid

def setProc (k : Kern) (pid : Nat) (p : Option Process) : Kern :=
  { k with procs := Function.update k.procs pid p }

def setCurrent (k : Kern) (p : Process) : Kern := k.setProc k.currentPid (some p)

/-- The pids of the process table, in ascending order. -/
def pids (k : Kern) : List Nat := (List.range k.nextPid).filter fun pid => (k.procs pid).isSome

/-- Some handle table refers to the memory object `id`. -/
def vmoHeld (k : Kern) (id : Nat) : Bool :=
  k.pids.any fun pid => match k.procs pid with
    | some p => p.fds.holds (.vmo id)
    | none => false

end Kern

/-- The values of the errno constants used here (`src/errno.rs`). -/
def EPERM : Nat := usizeMax
def ESRCH : Nat := usizeMax - 2
def EBADF : Nat := usizeMax - 8
def ENOMEM : Nat := usizeMax - 11
def EACCES : Nat := usizeMax - 12
def EFAULT : Nat := usizeMax - 13
def EINVAL : Nat := usizeMax - 21

/-! ## Jobs -/

/-- `Job::check_memory_limit`, for a job and its ancestors. -/
def checkMemoryLimit (k : Kern) (job : List Nat) (bytes : Nat) : Bool :=
  job.all fun j => decide (saturatingAdd (k.jobs j).currentMemory bytes ≤ (k.jobs j).maxMemory)

/-- `Job::alloc_memory`. -/
def allocMemory (job : List Nat) (bytes : Nat) (k : Kern) : Kern :=
  { k with jobs := fun j => if j ∈ job then
      { k.jobs j with currentMemory := ((k.jobs j).currentMemory + bytes) % 2 ^ 64 } else k.jobs j }

/-- `satp_unshare`: whether the caller owned the page table alone. -/
def satpUnshare (root : Nat) : Cmd Kern Bool := do
  let k ← Cmd.get
  match k.satpRefcount root with
  | none => pure true
  | some count =>
    if count = 0 then Cmd.die "attempt to subtract with overflow"
    else if count - 1 = 0 then do
      Cmd.modify fun k => { k with satpRefcount := Function.update k.satpRefcount root none }
      pure true
    else do
      Cmd.modify fun k => { k with satpRefcount := Function.update k.satpRefcount root (some (count - 1)) }
      pure false

end OpenV
