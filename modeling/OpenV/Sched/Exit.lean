import OpenV.Sched.State

/- How processes end: `exit` and its helpers (`posix/spawn.rs`), the release of
   record locks that goes with it (`syscall/ipc.rs`), and the signals of
   `sys_kill` (`syscall/proc.rs`). -/
namespace OpenV.Sched

def EINTR : Nat := usizeMax - 3

namespace Os

/-- Let a stopped process run. -/
def wakeStopped (pid : Pid) (s : Os) : Os :=
  match s.proc pid with
  | none => s
  | some p =>
    if p.state = .stopped then
      (s.setProc pid fun p => { p with state := .running }).enqueueWithPrio pid p.priority
    else s

/-- Let a process run, whatever its state is. -/
def resume (pid : Pid) (s : Os) : Os :=
  match s.proc pid with
  | none => s
  | some p => (s.setProc pid fun p => { p with state := .running }).enqueueWithPrio pid p.priority

def resumeAll (pids : List Pid) (s : Os) : Os := pids.foldl (fun s pid => s.resume pid) s

/-! ## Record locks -/

end Os

def FileLock.overlaps (req e : FileLock) : Bool := decide (req.start < e.stop) && decide (e.start < req.stop)

def FileLock.conflicts (req e : FileLock) : Bool :=
  e.pid != req.pid && req.overlaps e && (req.type == 1 || req.type == 0 && e.type == 1)

/-- `try_acquire`, when nothing conflicts: the new lock replaces what the process holds in its range. -/
def acquire (held : List FileLock) (req : FileLock) : List FileLock :=
  (held.filter fun e => e.pid != req.pid || !req.overlaps e) ++ [req]

/-- The loop of `wake_lock_waiters` on the locks: those held after it, the requests granted, those still waiting. -/
def grants : List FileLock → List FileLock → List FileLock × List FileLock × List FileLock
  | held, [] => (held, [], [])
  | held, w :: ws =>
    if held.any w.conflicts then
      let r := grants held ws
      (r.1, r.2.1, w :: r.2.2)
    else
      let r := grants (acquire held w) ws
      (r.1, w :: r.2.1, r.2.2)

namespace Os

/-- A lock was granted to a waiting process. -/
def granted (pid : Pid) (s : Os) : Os := (s.setProc pid fun p => { p with a0 := 0, ipc := .none }).resume pid

def wakeLockWaiters (file : Nat) (s : Os) : Os :=
  let r := grants (s.fileLocks file) (s.lockWaiters file)
  (r.2.1.map FileLock.pid).foldl (fun s pid => s.granted pid)
    { s with
      fileLocks := Function.update s.fileLocks file r.1
      lockWaiters := Function.update s.lockWaiters file r.2.2 }

def releaseAllLocks (pid : Pid) (s : Os) : Os :=
  s.waitedFiles.foldl (fun s file => s.wakeLockWaiters file)
    { s with fileLocks := fun file => (s.fileLocks file).filter fun e => e.pid != pid }

/-! ## Exit -/

/-- The address that `CLONE_CHILD_CLEARTID` clears is one that `exit` writes to. -/
def clears (tid : Nat) : Bool := tid != 0 && decide (0x100000000 ≤ tid)

def wakeFutex (addr : Nat) (s : Os) : Os :=
  { s with futexes := Function.update s.futexes addr [] }.resumeAll (s.futexes addr)

/-- Let a process that waits for the dying one return from its call with an error. -/
def unblock (pid : Pid) (s : Os) : Os :=
  (s.setProc pid fun p => { p with sepc := p.sepc + 4, a0 := ESRCH, ipc := .none }).wakeStopped pid

end Os

def IpcState.awaits (pid : Pid) : IpcState → Bool
  | .receiving source _ => source == pid
  | .receivingReply source _ => source == pid
  | _ => false

namespace Os

/-- The processes that wait for the dying one and are in no queue. -/
def stuckWaiters (pid : Pid) (s : Os) : List Pid :=
  s.procs.keys.filter fun q => (s.proc q).elim false fun p => p.ipc.awaits pid

/-- Whether `try_wake_parent` queues the result of a child. -/
def waitsFor (target : Option Int) (child : Pid) : Bool :=
  target == none || target == some (-1) || target == some child

def tryWakeParent (parent child : Pid) (status : Int) (s : Os) : Os :=
  let s := s.setProc parent fun p => { p with pendingSignals := p.pendingSignals ||| 1#32 <<< 17 }
  if (s.proc parent).elim false fun p => waitsFor p.waitTarget child then
    (s.setProc parent fun p => { p with waitResult := p.waitResult ++ [(child, status)] }).wakeStopped parent
  else s

def adopt (children : List Pid) (s : Os) : Os :=
  s.setProc 1 fun p =>
    { p with children := children.foldl (fun l c => if l.contains c then l else l ++ [c]) p.children }

/-- A child goes to init, which is told of it if it is a zombie. -/
def reparentOne (child : Pid) (s : Os) : Os :=
  match s.proc child with
  | none => s
  | some c =>
    let s := s.setProc child fun p => { p with ppid := 1 }
    match c.state with
    | .zombie status => if (s.proc 1).isSome then s.tryWakeParent 1 child status else s
    | _ => s

def reparent (children : List Pid) (s : Os) : Os := children.foldl (fun s c => s.reparentOne c) (s.adopt children)

/-- A process of the group has a parent in its session that is not the dying process. -/
def adopted (pid pgid : Pid) (s : Os) : Bool :=
  s.procs.keys.any fun q => (s.proc q).elim false fun p =>
    p.pgid == pgid && p.ppid != pid && p.ppid != 0 && (s.proc p.ppid).elim false fun parent => parent.sid == p.sid

def hangup (pid : Pid) (s : Os) : Os :=
  (s.setProc pid fun p => { p with pendingSignals := p.pendingSignals ||| (1#32 <<< 1 ||| 1#32 <<< 18) }).wakeStopped pid

def wakeGroup (pid pgid : Pid) (s : Os) : Os :=
  if s.adopted pid pgid then s
  else (s.procs.keys.filter fun q => (s.proc q).elim false fun p => p.pgid == pgid).foldl (fun s q => s.hangup q) s

def wakeOrphans (pid : Pid) (children : List Pid) (s : Os) : Os :=
  (((children ++ [pid]).filterMap fun q => (s.proc q).map Proc.pgid).eraseDups).foldl
    (fun s pgid => s.wakeGroup pid pgid) s

/-- The first phase: the process is dead, its handles are closed and its senders taken out. `dropped` are the
processes that the dropped handles wake. -/
def markDead (dropped : List Pid) (pid : Pid) (status : Int) (s : Os) : Os :=
  dropped.foldl (fun s q => s.enqueue q) (s.setProc pid fun p => { p with state := .zombie status, senders := [] })

/-- `exit`, for the process `p` that was found. -/
def exitFound (dropped : List Pid) (pid : Pid) (status : Int) (p : Proc) (s : Os) : Os :=
  let s := s.markDead dropped pid status
  let s := if clears p.clearTid then s.wakeFutex p.clearTid else s
  let s := p.senders.foldl (fun s q => s.unblock q) s
  let s := (s.stuckWaiters pid).foldl (fun s q => s.unblock q) s
  let s := s.releaseAllLocks pid
  let s := if p.children = [] then s else s.reparent p.children
  let s := if p.ppid ≠ 0 ∧ (s.proc p.ppid).isSome then s.tryWakeParent p.ppid pid status else s
  if p.children = [] then s else s.wakeOrphans pid p.children

def exit (dropped : List Pid) (pid : Pid) (status : Int) (s : Os) : Os :=
  match s.proc pid with
  | none => s
  | some p => s.exitFound dropped pid status p

/-- `sys_exit` -/
def sysExit (dropped : List Pid) (h : Nat) (status : Int) (s : Os) : Os :=
  (s.exit dropped (s.current h) status).leave h

/-! ## Signals sent -/

/-- `wake_with_eintr` -/
def wakeWithEintr (pid : Pid) (s : Os) : Os :=
  match s.proc pid with
  | none => s
  | some p =>
    if p.state = .stopped then
      let s := match p.ipc with
        | .sending target _ _ => s.setProc target fun t => { t with senders := t.senders.filter fun q => q ≠ pid }
        | _ => s
      (s.setProc pid fun p => { p with ipc := .none, sepc := p.sepc + 4, a0 := EINTR, state := .running }).enqueueWithPrio
        pid p.priority
    else s

/-- A signal other than SIGKILL reaches a process. -/
def post (sig : Nat) (pid : Pid) (s : Os) : Os :=
  let s := s.setProc pid fun p => { p with pendingSignals := p.pendingSignals ||| 1#32 <<< sig }
  if (s.proc pid).elim false fun p => !p.blockedSignals.getLsbD sig then s.wakeWithEintr pid else s

/-- The processes that `kill(target, _)` by `me` is for. -/
def killTargets (me : Pid) (target : Int) (s : Os) : List Pid :=
  s.procs.keys.filter fun q => (s.proc q).elim false fun p =>
    if 0 < target then q == target
    else if target = 0 then p.pgid == (s.proc me).elim 0 Proc.pgid
    else if target = -1 then decide (1 < q) && q != me
    else p.pgid == -target

def sigKill : Nat := 9
def sigChld : Nat := 17
def sigCont : Nat := 18
def sigStop : Nat := 19
def sigTstp : Nat := 20
def sigTtin : Nat := 21
def sigTtou : Nat := 22

/-- The exits that a `SIGKILL` makes; the caller's own comes last. -/
def killOrder (me : Pid) (targets : List Pid) : List Pid :=
  (targets.filter fun q => q ≠ me) ++ if me ∈ targets then [me] else []

def exitAll (dropped : Pid → List Pid) (status : Int) (pids : List Pid) (s : Os) : Os :=
  pids.foldl (fun s q => s.exit (dropped q) q status) s

/-- `sys_kill`, by the process on hart `h`. -/
def sysKill (dropped : Pid → List Pid) (h : Nat) (target : Int) (sig : Nat) (s : Os) : Os :=
  let me := s.current h
  let targets := s.killTargets me target
  if 32 ≤ sig then s.setA0 me usizeMax
  else if sig = sigKill then
    let s' := s.exitAll dropped (-9) (killOrder me targets)
    if me ∈ targets then s'.leave h else s'.setA0 me (if targets = [] then usizeMax else 0)
  else if sig = 0 then s.setA0 me usizeMax
  else (targets.foldl (fun s q => s.post sig q) s).setA0 me (if targets = [] then usizeMax else 0)

end Os
end OpenV.Sched
