import OpenV.Posix.Spawn

/- The life of processes and threads as far as page-table roots and job accounting
   go: the process table, the reference counts of shared roots (`satp_share`,
   `satp_unshare`) and the five ways to leave an address space. What the frame
   allocator and the loader answer is part of the choice of a step; a root that is
   handed out is one that is not in use. Which roots are in use, whether one was
   destroyed that was not, and whether a counter went below zero is recorded. -/
namespace OpenV

open Function

structure Life where
  procs : Nat → Option Process
  nextPid : Nat
  jobs : Nat → Job
  satpRefcount : Nat → Option Nat
  /-- the roots handed out and not destroyed since -/
  live : Nat → Bool
  /-- a root was destroyed that was not live -/
  twice : Bool := false
  /-- a job's memory went below zero -/
  underflow : Bool := false
  /-- charges whose check has passed, by process, with the jobs to charge -/
  pending : List (Nat × List Nat) := []

namespace Life

def setProc (l : Life) (pid : Nat) (q : Option Process) : Life := { l with procs := update l.procs pid q }

def pids (l : Life) : List Nat := (List.range l.nextPid).filter fun pid => (l.procs pid).isSome

/-- No process yet. -/
def start : Life where
  procs := fun _ => none
  nextPid := 1
  jobs := fun _ => {}
  satpRefcount := fun _ => none
  live := fun _ => false

/-! ## Roots -/

/-- `new_process_table`, where the allocator answers `frame`. -/
def newProcessTable (frame : Option Nat) : Cmd Life Nat := do
  let l ← Cmd.get
  match frame with
  | some root =>
    if root = 0 ∨ l.live root = true then Cmd.fail "Out of physical memory"
    else do
      Cmd.modify fun l => { l with live := update l.live root true }
      pure root
  | none => Cmd.fail "Out of physical memory"

/-- The root is given back. -/
def destroyed (l : Life) (root : Nat) : Life :=
  { l with live := update l.live root false, twice := l.twice || !l.live root }

/-- `destroy_user_space`. -/
def destroyUserSpace (root : Nat) : Cmd Life Unit := Cmd.modify fun l => l.destroyed root

def setRefs (l : Life) (root : Nat) (count : Option Nat) : Life :=
  { l with satpRefcount := update l.satpRefcount root count }

/-- `satp_share`. -/
def satpShare (root : Nat) : Cmd Life Unit :=
  Cmd.modify fun l => l.setRefs root (some ((l.satpRefcount root).getD 1 + 1))

/-- `satp_unshare`. -/
def satpUnshare (root : Nat) : Cmd Life Bool := do
  let l ← Cmd.get
  match l.satpRefcount root with
  | none => pure true
  | some count =>
    if count = 0 then Cmd.die "attempt to subtract with overflow"
    else if count - 1 = 0 then do
      Cmd.modify fun l => l.setRefs root none
      pure true
    else do
      Cmd.modify fun l => l.setRefs root (some (count - 1))
      pure false

/-- `satp_unshare`, and `destroy_user_space` for the last owner. -/
def release (root : Nat) : Cmd Life Unit := do
  if ← satpUnshare root then destroyUserSpace root else pure ()

/-! ## Job accounting -/

/-- `Job::check_memory_limit`. -/
def checkMemoryLimit (l : Life) (job : List Nat) (bytes : Nat) : Bool :=
  job.all fun j => decide (saturatingAdd (l.jobs j).currentMemory bytes ≤ (l.jobs j).maxMemory)

/-- `Job::alloc_memory`. -/
def allocMemory (job : List Nat) (bytes : Nat) (l : Life) : Life :=
  { l with jobs := fun j => if j ∈ job then
      { l.jobs j with currentMemory := ((l.jobs j).currentMemory + bytes) % 2 ^ 64 } else l.jobs j }

/-- `Job::dealloc_memory`. -/
def deallocMemory (job : List Nat) (bytes : Nat) (l : Life) : Life :=
  { l with
    jobs := fun j => if j ∈ job then
      { l.jobs j with currentMemory := ((l.jobs j).currentMemory + (2 ^ 64 - bytes % 2 ^ 64)) % 2 ^ 64 } else l.jobs j
    underflow := l.underflow || job.any fun j => decide ((l.jobs j).currentMemory < bytes) }

/-! ## The calls -/

/-- `Process::new`. -/
def processNew (ppid : Nat) (frame : Option Nat) (c : Chance) : Cmd Life (Nat × Process) := do
  let l ← Cmd.get
  if maxProcesses ≤ l.pids.length then Cmd.fail "process limit reached"
  else do
    let pid := l.nextPid
    Cmd.modify fun l => { l with nextPid := pid + 1 }
    match ← Cmd.attempt (newProcessTable frame) with
    | .error _ => Cmd.fail "OOM: failed to create page table for process"
    | .ok root =>
      if c.heapOk = false then do
        destroyUserSpace root
        Cmd.fail "OOM: failed to allocate kernel stack"
      else do
        let q := inherit (l.procs ppid) root c.aslr
        Cmd.modify fun l => l.setProc pid (some q)
        pure (pid, q)

/-- `cleanup_process`: the root goes before the process leaves the table. -/
def cleanupProcess (pid : Nat) : Cmd Life Unit := do
  let l ← Cmd.get
  match l.procs pid with
  | none => pure ()
  | some q => do
    release q.root
    Cmd.modify fun l => l.setProc pid none

/-- `posix_spawn`; `failure` is the error met in finding the file, loading it or setting up the stack. -/
def posixSpawn (ppid : Nat) (frame : Option Nat) (c : Chance) (failure : Option String) : Cmd Life Unit := do
  let (pid, _) ← processNew ppid frame c
  match failure with
  | none => pure ()
  | some e => do
    cleanupProcess pid
    Cmd.fail e

/-- `sys_fork`; `cloned` is whether `clone_user_space` succeeds. -/
def sysFork (ppid : Nat) (frame : Option Nat) (c : Chance) (cloned : Bool) : Cmd Life Unit := do
  let _ ← processNew ppid frame c
  let l ← Cmd.get
  match l.procs ppid with
  | none => pure ()
  | some _ => if cloned then pure () else Cmd.die "Recursive lock deadlock detected!"

/-- `sys_clone`, with or without `CLONE_VM`. -/
def sysClone (ppid : Nat) (vm : Bool) (frame : Option Nat) (c : Chance) (cloned : Bool) : Cmd Life Unit := do
  let (childPid, child) ← processNew ppid frame c
  let l ← Cmd.get
  match l.procs ppid with
  | none => cleanupProcess childPid
  | some parent =>
    if vm then do
      destroyUserSpace child.root
      Cmd.modify fun l => l.setProc childPid (some { child with root := parent.root })
      satpShare parent.root
    else if cloned then pure ()
    else cleanupProcess childPid

/-- `sys_exec`; `failure` is the error met in loading the image or setting up the stack in the new space. -/
def sysExec (pid : Nat) (frame : Option Nat) (failure : Option String) : Cmd Life Unit := do
  let l ← Cmd.get
  match l.procs pid with
  | none => Cmd.fail "exec: current process not found"
  | some q => do
    let newRoot ← newProcessTable frame
    match failure with
    | none => do
      Cmd.modify fun l => l.setProc pid (some { q with root := newRoot })
      release q.root
    | some e => Cmd.fail e

/-- `exit`: the process stays in the table as a zombie. -/
def exit (pid : Nat) (status : Int) : Cmd Life Unit := do
  let l ← Cmd.get
  match l.procs pid with
  | none => pure ()
  | some q => Cmd.modify fun l => l.setProc pid (some { q with state := .zombie status, fds := q.fds.closeAll })

/-- `reap_zombie` of `sys_waitpid`. -/
def reapZombie (zpid : Nat) : Cmd Life Unit := do
  let l ← Cmd.get
  match l.procs zpid with
  | none => pure ()
  | some q => do
    Cmd.modify fun l => l.setProc zpid none
    if q.root ≠ 0 then release q.root else pure ()

/-- `sys_reap_process`. -/
def sysReapProcess (pid : Nat) : Cmd Life Unit := do
  let l ← Cmd.get
  match l.procs pid with
  | none => pure ()
  | some q =>
    match q.state with
    | .zombie _ => do
      Cmd.modify fun l => l.setProc pid none
      Cmd.modify (deallocMemory q.job (q.allocatedPages * 4096))
      if q.root ≠ 0 then release q.root else pure ()
    | _ => pure ()

/-- `sys_destroy_user_space`: the old root goes whoever else uses it. -/
def sysDestroyUserSpace (pid : Nat) (frame : Option Nat) : Cmd Life Unit := do
  let l ← Cmd.get
  match l.procs pid with
  | none => pure ()
  | some q =>
    match ← Cmd.attempt (newProcessTable frame) with
    | .error _ => Cmd.die "called `Result::unwrap()` on an `Err` value"
    | .ok newRoot => do
      Cmd.modify fun l => l.setProc pid (some { q with root := newRoot, allocatedPages := 0 })
      destroyUserSpace q.root
      Cmd.modify (deallocMemory q.job (q.allocatedPages * 4096))

/-- The check of `handle_user_page_fault` and `sys_alloc_user_page`. -/
def checkCharge (pid : Nat) : Cmd Life Unit := do
  let l ← Cmd.get
  match l.procs pid with
  | none => pure ()
  | some q =>
    if l.checkMemoryLimit q.job 4096 then Cmd.modify fun l => { l with pending := l.pending ++ [(pid, q.job)] }
    else Cmd.fail "Memory limit exceeded for Job"

/-- The rest of them, for the charge number `i` whose check has passed; `mapped` is whether a frame was
found and mapped. -/
def charge (i : Nat) (mapped : Bool) : Cmd Life Unit := do
  let l ← Cmd.get
  match l.pending[i]? with
  | none => pure ()
  | some (pid, job) => do
    Cmd.modify fun l => { l with pending := l.pending.eraseIdx i }
    if mapped then do
      Cmd.modify (allocMemory job 4096)
      Cmd.modify fun l =>
        match l.procs pid with
        | some q => l.setProc pid (some { q with allocatedPages := q.allocatedPages + 1 })
        | none => l
    else pure ()

/-! ## Rules -/

section Rules
open Cmd
variable {l : Life} {Q : Unit → Life → Prop} {E X : Life → Prop}

/-- A command that first looks for a process. -/
theorem wp_proc {pid : Nat} {d : Cmd Life Unit} {f : Life → Process → Cmd Life Unit}
    (hnone : l.procs pid = none → d.wp Q E X l) (hsome : ∀ q, l.procs pid = some q → (f l q).wp Q E X l) : (do
      let l ← Cmd.get
      match l.procs pid with
      | none => d
      | some q => f l q : Cmd Life Unit).wp Q E X l := by
  rw [wp_bind, wp_get]
  cases hq : l.procs pid with
  | none => exact hnone hq
  | some q => exact hsome q hq

variable {I : Life → Prop} {B : Nat → Process → Life → Prop} {ppid : Nat} {frame : Option Nat} {c : Chance}
  (hnew : (processNew ppid frame c).wp (fun x => B x.1 x.2) I X l)
  (hB : ∀ {pid q l'}, B pid q l' → I l' ∧ (cleanupProcess pid).wp (fun _ => I) I X l')
include hnew hB

theorem posixSpawn_wp (failure : Option String) : (posixSpawn ppid frame c failure).wp (fun _ => I) I X l := by
  simp only [posixSpawn, wp_bind]
  refine wp_imp hnew fun x l' hx => ?_
  cases failure with
  | none => exact (wp_pure _).mpr (hB hx).1
  | some e =>
    simp only [wp_bind, wp_fail]
    exact (hB hx).2

theorem sysFork_wp (cloned : Bool) (hX : ∀ l, X l) : (sysFork ppid frame c cloned).wp (fun _ => I) I X l := by
  rw [sysFork, wp_bind]
  refine wp_imp hnew fun x l' hx => wp_proc (fun _ => (wp_pure _).mpr (hB hx).1) fun q _ => ?_
  simp only [wp_ite, wp_die, wp_pure]
  exact ⟨fun _ => (hB hx).1, fun _ => hX _⟩

theorem sysClone_wp (vm cloned : Bool) (hshare : ∀ {pid q l' parent}, B pid q l' → l'.procs ppid = some parent →
      I (((l'.destroyed q.root).setProc pid (some { q with root := parent.root })).setRefs parent.root
        (some ((l'.satpRefcount parent.root).getD 1 + 1)))) :
    (sysClone ppid vm frame c cloned).wp (fun _ => I) I X l := by
  rw [sysClone, wp_bind]
  refine wp_imp hnew fun x l' hx => wp_proc (fun _ => (hB hx).2) fun parent hp => ?_
  simp only [wp_ite, wp_bind, destroyUserSpace, satpShare, wp_modify, wp_pure]
  exact ⟨fun _ => hshare hx hp, fun _ => ⟨fun _ => (hB hx).1, fun _ => (hB hx).2⟩⟩

end Rules
end Life

inductive LifeOp where
  | spawn (ppid : Nat) (frame : Option Nat) (c : Chance) (failure : Option String)
  | fork (ppid : Nat) (frame : Option Nat) (c : Chance) (cloned : Bool)
  | clone (ppid : Nat) (vm : Bool) (frame : Option Nat) (c : Chance) (cloned : Bool)
  | exec (pid : Nat) (frame : Option Nat) (failure : Option String)
  | exit (pid : Nat) (status : Int)
  | reap (pid : Nat)
  | reapProcess (pid : Nat)
  | destroyUserSpace (pid : Nat) (frame : Option Nat)
  | check (pid : Nat)
  | charge (i : Nat) (mapped : Bool)

/-- A syscall of `pid`, which has to be in the table to make it. -/
def Life.calling (pid : Nat) (call : Cmd Life Unit) : Cmd Life Unit := do
  let l ← Cmd.get
  match l.procs pid with
  | some _ => call
  | none => pure ()

theorem Life.calling_wp {l : Life} {E X : Life → Prop} {Q : Unit → Life → Prop} {pid : Nat} {call : Cmd Life Unit}
    (hnone : Q () l) (hsome : ∀ q, l.procs pid = some q → call.wp Q E X l) : (calling pid call).wp Q E X l := by
  simp only [calling, Cmd.wp_bind, Cmd.wp_get]
  cases hq : l.procs pid with
  | none => simpa only [Cmd.wp_pure] using hnone
  | some q => exact hsome q hq

/-- `unmap_range` is not among the steps: it touches none of this. -/
def LifeOp.run : LifeOp → Cmd Life Unit
  | .spawn ppid frame c failure => Life.posixSpawn ppid frame c failure
  | .fork ppid frame c cloned => Life.calling ppid (Life.sysFork ppid frame c cloned)
  | .clone ppid vm frame c cloned => Life.calling ppid (Life.sysClone ppid vm frame c cloned)
  | .exec pid frame failure => Life.sysExec pid frame failure
  | .exit pid status => Life.exit pid status
  | .reap pid => Life.reapZombie pid
  | .reapProcess pid => Life.sysReapProcess pid
  | .destroyUserSpace pid frame => Life.sysDestroyUserSpace pid frame
  | .check pid => Life.checkCharge pid
  | .charge i mapped => Life.charge i mapped

end OpenV
