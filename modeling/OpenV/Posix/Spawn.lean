import OpenV.Kernel.Vm
import OpenV.Posix.Elf

/- The life of a process as far as memory goes (`src/posix/process.rs`,
   `src/posix/spawn.rs`, `reap_zombie` of `src/syscall/proc.rs`): creation, fork,
   exec, exit and reaping. -/
namespace OpenV

def userStackTop : Nat := 0x200000000
def userStackPages : Nat := 8
def maxProcesses : Nat := 512

/-- The outcome of `alloc_zeroed` for a kernel stack, and the value of `aslr_rand`. -/
structure Chance where
  heapOk : Bool
  aslr : Nat

/-- What a new process inherits. -/
def inherit (parent : Option Process) (root aslr : Nat) : Process :=
  let nextMmapVa := pageDown (0x400000000 + (aslr &&& 0x0FFFFFFF))
  match parent with
  | some p => { fds := p.fds, root, nextMmapVa, caps := p.caps, job := p.job }
  | none => { root, nextMmapVa }

/-- `Process::new`, for a process that is not the first. -/
def processNew (ppid : Nat) (c : Chance) : Cmd Kern (Nat × Process) := do
  let k ← Cmd.get
  if maxProcesses ≤ k.pids.length then Cmd.fail "process limit reached"
  else do
    let pid := k.nextPid
    Cmd.modify fun k => { k with nextPid := pid + 1 }
    match ← Cmd.attempt (Kern.onMm newProcessTable) with
    | .error _ => Cmd.fail "OOM: failed to create page table for process"
    | .ok root =>
      if c.heapOk = false then do
        Kern.onMm (destroyUserSpace root)
        Cmd.fail "OOM: failed to allocate kernel stack"
      else do
        let p := inherit (k.procs ppid) root c.aslr
        Cmd.modify fun k => k.setProc pid (some p)
        pure (pid, p)

/-- `sys_fork`. When the clone fails, `cleanup_process` locks the process table that is locked
already. -/
def sysFork (c : Chance) : Cmd Kern Nat := do
  let k ← Cmd.get
  let ppid := k.currentPid
  let (childPid, child) ← processNew ppid c
  let k ← Cmd.get
  match k.procs ppid with
  | none => pure childPid
  | some parent =>
    match ← Cmd.attempt (Kern.onMm (cloneUserSpace parent.root child.root)) with
    | .ok () => pure childPid
    | .error _ => Cmd.die "Recursive lock deadlock detected!"

/-- The user stack of a new image. -/
def mapUserStack (root : Nat) : Cmd Mm Unit :=
  Cmd.forEach (List.range userStackPages) fun i =>
    mapFresh "Failed to alloc user stack" root (userStackTop - userStackPages * pageSize + i * pageSize)
      (fun _ => 0#64) (pteR ||| pteW ||| pteU)

/-- The handles of `objs` are dropped one after the other. -/
def dropObjects (objs : List KernelObject) : Cmd Kern Unit := Cmd.forEach objs dropObject

/-- The objects of `before` that have no handle in `after`. -/
def closedObjects (before after : HandleTable) : List KernelObject :=
  (before.map.filter fun x => !after.map.contains x).map (·.2.object)

/-- `sys_exec`, given the bytes of the executable. A failure leaves the new page table behind. -/
def sysExec (data : Bytes) : Cmd Kern ElfLoadInfo := do
  let k ← Cmd.get
  match k.currentProc with
  | none => Cmd.fail "exec: current process not found"
  | some p => do
    let newRoot ← Kern.onMm newProcessTable
    let info ← Kern.onMm (loadElf data newRoot)
    Kern.onMm (mapUserStack newRoot)
    Cmd.modify fun k => k.setCurrent { p with root := newRoot }
    if ← satpUnshare p.root then Kern.onMm (destroyUserSpace p.root) else pure ()
    Cmd.modify fun k => k.setCurrent { p with root := newRoot, fds := p.fds.closeOnExec }
    dropObjects (closedObjects p.fds p.fds.closeOnExec)
    pure info

/-- `exit`: the process becomes a zombie and its handles are closed. -/
def exit (pid : Nat) (status : Int) : Cmd Kern Unit := do
  let k ← Cmd.get
  match k.procs pid with
  | none => pure ()
  | some p => do
    Cmd.modify fun k => k.setProc pid (some { p with state := .zombie status, fds := p.fds.closeAll })
    dropObjects (p.fds.map.map (·.2.object))

/-- `reap_zombie`: the process leaves the table and its address space is destroyed. -/
def reapZombie (zpid : Nat) : Cmd Kern Unit := do
  let k ← Cmd.get
  match k.procs zpid with
  | none => pure ()
  | some p => do
    Cmd.modify fun k => k.setProc zpid none
    if p.root = 0 then pure ()
    else if ← satpUnshare p.root then do
      Cmd.modify (evictAll p.root)
      Kern.onMm (destroyUserSpace p.root)
    else pure ()
    -- the last reference to the process drops its handle table
    dropObjects (p.fds.map.map (·.2.object))

end OpenV
