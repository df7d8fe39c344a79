import OpenV.Kernel.State
import OpenV.Sync.Objects

/- The calls, lock by lock: `exit`, `sys_exec` and `sys_fork` (`posix/spawn.rs`,
   `syscall/proc.rs`), `sys_ipc_send`, `sys_ipc_receive` and `sys_ipc_sendrec`
   (`syscall/ipc.rs`) and `push_pending_accepted` (`net/socket.rs`).

   A guard lives as long as the compiler keeps it: through the block of an `if
   let` or the body of a `match` or `for` whose scrutinee made it, to the end of
   the statement for any other temporary. An early return is an error of the
   command; a panic other than that of the mutex (`unwrap` of a missing process)
   ends the call as an early return does. `n` bounds the length of a run: how
   many objects are dropped, how many queue entries the scheduler looks at, and
   how deep `exit` calls itself through the page-fault handler. -/
namespace OpenV.Sync

open Proc Sys Cmd

/-- `HandleTable` lookups by handle value. -/
def Proc.handle (p : Proc) (h : Nat) : Option Obj := (p.fds.find? fun e => e.handle == h).map Entry.obj

/-! ## The scheduler -/

def ProcState.status : ProcState → Option Int
  | .zombie status => some status
  | _ => none

/-- The entry that the scheduler takes: the first of the lowest priority number. -/
def nextEntry : List (Int × Int) → Option (Int × Int)
  | [] => none
  | x :: xs => match nextEntry xs with
    | none => some x
    | some y => if y.1 < x.1 then some y else some x

def schedule : Nat → Run Unit
  | 0 => pure ()
  | n + 1 => do
    let next ← locked .runQueue do
      let s ← read
      let next := nextEntry s.runQueue
      forSome next fun x => write fun s => { s with runQueue := s.runQueue.erase x }
      pure (next.map Prod.snd)
    match next with
    | none => write fun s => { s with current := 0 }
    | some pid => do
      let p ← locked .processTable (getProc pid)
      match p with
      | none => schedule n
      | some _ => do
        let state ← field pid .state .running state
        match state.status with
        | some _ => schedule n
        | none => do
          setField pid .state fun p => { p with state := .running }
          write fun s => { s with current := pid }
          locked (.proc pid .trapFrame) (pure ())

/-! ## Access to user memory -/

def getCurrentProc : Run (Option Proc) := do
  let s ← read
  locked .processTable (getProc s.current)

/-- The page-fault handler; `giveUp` is what it does when nothing helps. -/
def handleFault (giveUp : Run Unit) : Access → Run Unit
  | .ready => pure ()
  | .cow => frameOps [.alloc, .count]
  | .swapped => do
    locked .swapMap (pure ())
    locked .swapMap (pure ())
    frameOps [.alloc]
  | .demand => do
    locked .swapMap (pure ())
    let _ ← getCurrentProc
    frameOps [.alloc]
  | .refused => giveUp

/-- A load or store at a user page. -/
def touch (giveUp : Run Unit) (store : Bool) (va : Nat) : Run Unit := do
  let s ← read
  handleFault giveUp (s.page va store)

/-- The pages of `[ptr, ptr + len)`. -/
def pagesOf (ptr len : Nat) : List Nat :=
  if len = 0 then []
  else (List.range ((ptr + len - 1) / 4096 - ptr / 4096 + 1)).map fun i => (ptr / 4096 + i) % 2 ^ 52 * 4096

/-- A copy from or to user memory. -/
def copyUser (giveUp : Run Unit) (store : Bool) (ptr len : Nat) : Run Unit :=
  forEach (pagesOf ptr len) (touch giveUp store)

/-! ## Exit -/

/-- What the first phase of `exit` hands to the others. -/
structure Dying where
  ppid : Int
  children : List Int
  senders : List Int
  clearTid : Nat

/-- Phase 1, for a caller that has the table locked: the handles are closed under that lock. -/
def markDead (n : Nat) (pid status : Int) : Run (Option Dying) := do
  let p ← getProc pid
  p.elim (pure none) fun p => do
    setField pid .state fun p => { p with state := .zombie status }
    locked (.proc pid .fds) (closeAll n pid)
    let children ← field pid .children [] children
    let senders ← locked (.proc pid .senders) do
      let s ← read
      write (setProc pid fun p => { p with senders := [] })
      pure ((s.proc pid).elim [] senders)
    pure (some ⟨p.ppid, children, senders, p.clearTid⟩)

/-- The address that `CLONE_CHILD_CLEARTID` clears is one that `exit` writes to. -/
def clears (tid : Nat) : Prop := tid ≠ 0 ∧ 0x100000000 ≤ tid

instance (tid : Nat) : Decidable (clears tid) := inferInstanceAs (Decidable (_ ∧ _))

def wakeFutex (tid : Nat) : Run Unit :=
  locked .futexTable do
    let s ← read
    write fun s => { s with futexes := s.futexes.filter fun x => x.1 ≠ tid }
    forEach ((s.futexes.lookup tid).getD []) fun pid =>
      locked .processTable do
        let p ← getProc pid
        forSome p fun p => do
          setField pid .state fun p => { p with state := .running }
          enqueueWithPrio pid p.priority

/-- Let a process that waits for the dying one return from its call with an error. -/
def unblock (pid : Int) : Run Unit :=
  locked .processTable do
    let p ← getProc pid
    forSome p fun p => do
      setField pid .trapFrame fun p => { p with sepc := p.sepc + 4, a0 := ESRCH }
      setField pid .ipcState fun p => { p with ipc := .none }
      wakeStopped pid p.priority

def IpcState.awaits (pid : Int) : IpcState → Bool
  | .receiving source _ => source == pid
  | .receivingReply source _ => source == pid
  | _ => false

/-- The processes that wait for the dying one and are in no queue. -/
def stuckWaiters (pid : Int) : Run (List Int) :=
  locked .processTable do
    let s ← read
    forEach s.procs fun x => locked (.proc x.1 .ipcState) (pure ())
    pure ((s.procs.filter fun x => x.2.ipc.awaits pid).map Prod.fst)

def FileLock.conflicts (req e : FileLock) : Bool :=
  e.pid != req.pid && (decide (req.start < e.stop) && decide (e.start < req.stop)) && (req.write || e.write)

/-- The requests of a file's waiters that can be granted now, in order, and the locks that result. -/
def tryAcquire (file : Nat) (req : FileLock) : Run Bool :=
  locked .fileLocks do
    let s ← read
    let held := (s.fileLocks.lookup file).getD []
    if held.any req.conflicts then pure false
    else do
      let rest := held.filter fun e =>
        e.pid != req.pid || !(decide (req.start < e.stop) && decide (e.start < req.stop))
      write fun s => { s with
        fileLocks := (file, rest ++ [req]) :: s.fileLocks.filter fun x => x.1 ≠ file }
      pure true

def wakeLockWaiter (file : Nat) (req : FileLock) : Run Unit := do
  let granted ← tryAcquire file req
  if granted then do
    let prio ← locked .processTable do
      let p ← getProc req.pid
      forSome p fun _ => do
        setField req.pid .trapFrame fun p => { p with a0 := 0 }
        setField req.pid .ipcState fun p => { p with ipc := .none }
        setField req.pid .state fun p => { p with state := .running }
      pure (p.map priority)
    forSome prio (enqueueWithPrio req.pid)
  else write fun s => { s with
    lockWaiters := s.lockWaiters.map fun x => if x.1 = file then (x.1, x.2 ++ [req]) else x }

def wakeLockWaiters (file : Nat) : Run Unit :=
  locked .lockWaiters do
    let s ← read
    write fun s => { s with
      lockWaiters := s.lockWaiters.map fun x => if x.1 = file then (x.1, []) else x }
    forEach ((s.lockWaiters.lookup file).getD []) (wakeLockWaiter file)

def releaseAllLocks (pid : Int) : Run Unit := do
  locked .fileLocks (write fun s => { s with
    fileLocks := (s.fileLocks.map fun x => (x.1, x.2.filter fun e => e.pid ≠ pid)).filter fun x => x.2 ≠ [] })
  let files ← locked .lockWaiters do
    let s ← read
    pure (s.lockWaiters.map Prod.fst)
  forEach files wakeLockWaiters

/-- `try_wake_parent`, for a caller that has the table locked. -/
def tryWakeParent (parent prio child status : Int) : Run Unit := do
  write (setProc parent fun p => { p with pendingSignals := p.pendingSignals ||| 2 ^ 17 })
  let target ← field parent .waitTarget none waitTarget
  onlyIf (target = none ∨ target = some (-1) ∨ target = some child) do
    setField parent .waitResult fun p => { p with waitResult := p.waitResult ++ [(child, status)] }
    wakeStopped parent prio

/-- Phase 2: the children go to init, which is woken for those that are zombies. -/
def reparent (children : List Int) : Run Unit :=
  locked .processTable do
    let init ← getProc 1
    forSome init fun _ => setField 1 .children fun p =>
      { p with children := children.foldl (fun l c => if l.contains c then l else l ++ [c]) p.children }
    forEach children fun child => do
      let c ← getProc child
      forSome c fun _ => do
        write (setProc child fun p => { p with ppid := 1 })
        forSome init fun i => do
          let state ← field child .state .running state
          forSome state.status (tryWakeParent 1 i.priority child)

/-- Phase 3. -/
def wakeParent (ppid pid status : Int) : Run Unit :=
  locked .processTable do
    let p ← getProc ppid
    forSome p fun p => tryWakeParent ppid p.priority pid status

/-- A process of the group has a parent in its session that is not the dying process. -/
def Sys.adopted (s : Sys) (pid pgid : Int) : Bool :=
  s.procs.any fun x => x.2.pgid == pgid && x.2.ppid != pid && x.2.ppid != 0 &&
    (s.proc x.2.ppid).elim false fun parent => parent.sid == x.2.sid

/-- Phase 4: the stopped members of orphaned process groups are let go on. -/
def wakeOrphans (pid : Int) (children : List Int) : Run Unit :=
  locked .processTable do
    let s ← read
    let pgids := ((children ++ [pid]).filterMap fun q => (s.proc q).map pgid).eraseDups
    forEach pgids fun pgid => do
      let s ← read
      onlyIf (s.adopted pid pgid = false) <|
        forEach (s.procs.filter fun x => x.2.pgid == pgid) fun x => do
          write (setProc x.1 fun p => { p with pendingSignals := p.pendingSignals ||| (2 ||| 2 ^ 18) })
          wakeStopped x.1 x.2.priority

/-- `exit` after its first phase and the clearing of the thread id. -/
def exitRest (pid status : Int) (d : Dying) : Run Unit := do
  forEach d.senders unblock
  let stuck ← stuckWaiters pid
  forEach stuck unblock
  locked .irqHandlers (write fun s => { s with irqHandlers := s.irqHandlers.filter fun x => x.2 ≠ pid })
  releaseAllLocks pid
  onlyIf (d.children ≠ []) (reparent d.children)
  onlyIf (d.ppid ≠ 0) (wakeParent d.ppid pid status)
  onlyIf (d.children ≠ []) (wakeOrphans pid d.children)

/-- What the page-fault handler does with a fault that it cannot resolve, given `exit`. -/
def kill (n : Nat) (exit : Int → Int → Run Unit) : Run Unit := do
  let s ← read
  exit s.current (-11)
  schedule n
  Cmd.fail "the process is gone"

/-- `CLONE_CHILD_CLEARTID`: the store is made with no lock held. -/
def clearChildTid (n : Nat) (exit : Int → Int → Run Unit) (tid : Nat) : Run Unit :=
  onlyIf (clears tid) do
    copyUser (kill n exit) true tid 4
    wakeFutex tid

def exit : Nat → Int → Int → Run Unit
  | 0, _, _ => pure ()
  | n + 1, pid, status => do
    let d ← locked .processTable (markDead n pid status)
    forSome d fun d => do
      clearChildTid n (exit n) d.clearTid
      exitRest pid status d

def segfault (n : Nat) : Run Unit := kill n (exit n)

/-! ## Exec -/

/-- The arguments of `sys_exec`, and what the loader does with them. -/
structure ExecArgs where
  pathPtr : Nat
  pathLen : Nat
  argvPtr : Nat
  argvLen : Nat
  envpPtr : Nat
  envpLen : Nat
  /-- the path is text and names a file of the initrd -/
  found : Bool
  /-- the frame operations of the loader, and whether it succeeds -/
  load : List FrameOp
  loaded : Bool
  /-- the frame operations that destroy the old space -/
  destroy : List FrameOp
  /-- how far down the new stack is written, and what an access meets in the new space -/
  stackUsed : Nat
  page : Nat → Bool → Access

def userStackTop : Nat := 0x200000000

def ExecArgs.pointersOk (a : ExecArgs) : Bool :=
  isUserPointerValid 1 a.pathPtr a.pathLen &&
  (!(decide (0 < a.argvLen) && a.argvPtr != 0) || isUserPointerValid 1 a.argvPtr a.argvLen) &&
  (!(decide (0 < a.envpLen) && a.envpPtr != 0) || isUserPointerValid 1 a.envpPtr a.envpLen)

/-- The pages of user memory that `sys_exec` reads. -/
def ExecArgs.reads (a : ExecArgs) : List Nat :=
  (if a.argvPtr = 0 then [] else pagesOf a.argvPtr a.argvLen) ++
  (if a.envpPtr = 0 then [] else pagesOf a.envpPtr a.envpLen) ++ pagesOf a.pathPtr a.pathLen

/-- `spawn::sys_exec`, after the path has been read. -/
def execLoad (a : ExecArgs) : Run Unit := do
  require (a.found = true) "File not found in initrd"
  let p ← getCurrentProc
  require (p.isSome = true) "exec: current process not found"
  frameOps a.load
  require (a.loaded = true) "load failed"
  write fun s => { s with page := a.page }
  locked .satpRefcount (pure ())
  frameOps a.destroy

/-- For a caller that has the table locked. -/
def execClose (n : Nat) (pid : Int) : Run Unit := do
  let p ← getProc pid
  forSome p fun _ => locked (.proc pid .fds) (closeOnExec n pid)

def execReset (pid : Int) : Run Unit :=
  locked .processTable do
    let p ← getProc pid
    forSome p fun _ => do
      setField pid .waitResult fun p => { p with waitResult := [] }
      setField pid .waitTarget fun p => { p with waitTarget := none }
      locked (.proc pid .signalHandlers) (pure ())
      locked (.proc pid .signalRestorers) (pure ())

def sysExec (n : Nat) (a : ExecArgs) : Run Unit := do
  require (a.pointersOk = true) "EFAULT"
  forEach a.reads (touch (segfault n) false)
  execLoad a
  let s ← read
  locked .processTable (execClose n s.current)
  execReset s.current
  copyUser (segfault n) true (userStackTop - a.stackUsed) a.stackUsed
  let _ ← locked .processTable (getProc s.current)
  pure ()

/-! ## Fork -/

/-- What the allocations of a fork come to. -/
structure ForkEnv where
  root : List FrameOp
  rootOk : Bool
  stackOk : Bool
  destroy : List FrameOp
  clone : List FrameOp
  cloneOk : Bool
  destroyChild : List FrameOp

/-- The references that copies of handles add. -/
def Sys.dup (s : Sys) : Obj → Sys
  | .pipeWrite i => s.setPipe i fun x => { x with writers := x.writers + 1 }
  | .channel i => s.setEndpoint i fun x => { x with refs := x.refs + 1 }
  | .epoll i => s.setEpoll i fun x => { x with refs := x.refs + 1 }
  | .vmo i => s.setVmo i fun x => { x with refs := x.refs + 1 }
  | .other => s

/-- `Process::new` copies the parent's handles; a process without a parent gets the console. -/
def inheritFds (ppid : Int) : Run (List Entry) :=
  if ppid = 0 then do
    locked .activeTty (pure ())
    pure [⟨0, .other, false⟩, ⟨1, .other, false⟩, ⟨2, .other, false⟩]
  else do
    let p ← locked .processTable (getProc ppid)
    p.elim (pure []) fun _ => locked (.proc ppid .fds) do
      let s ← read
      let fds := (s.proc ppid).elim [] fds
      write fun s => (fds.map Entry.obj).foldl dup s
      pure fds

/-- `Process::new` reads the parent's identity with five of its mutexes held at once. -/
def inheritIdentity (ppid pid : Int) : Run (Int × Int) :=
  if ppid = 0 then pure (pid, pid)
  else locked .processTable do
    let p ← getProc ppid
    p.elim (pure (pid, pid)) fun p =>
      locked (.proc ppid .cwd) <| locked (.proc ppid .signalHandlers) <|
      locked (.proc ppid .signalRestorers) <| locked (.proc ppid .signalMasks) <|
      locked (.proc ppid .ns) (pure (p.pgid, p.sid))

/-- The parent, where there is one. -/
def parentOf (ppid : Int) : Run (Option Proc) :=
  if ppid = 0 then pure none else locked .processTable (getProc ppid)

def processNew (env : ForkEnv) (ppid : Int) : Run Int := do
  let full ← locked .processTable do
    let s ← read
    pure (decide (512 ≤ s.procs.length))
  require (full = false) "process limit reached"
  let s ← read
  let pid := s.nextPid
  write fun s => { s with nextPid := s.nextPid + 1 }
  frameOps env.root
  require (env.rootOk = true) "OOM: failed to create page table for process"
  onlyIf (env.stackOk = false) (frameOps env.destroy)
  require (env.stackOk = true) "OOM: failed to allocate kernel stack"
  let fds ← inheritFds ppid
  let ids ← inheritIdentity ppid pid
  let parent ← parentOf ppid
  onlyIf (parent.isNone = true) (locked .rootJob (pure ()))
  locked .job (pure ())
  locked .processTable (write fun s => { s with
    procs := s.procs ++ [(pid, ⟨.running, fds, [], [], 0, 0, .none, [], none, [], ppid, ids.1, ids.2, prioNormal,
      0, 0⟩)] })
  let parent ← parentOf ppid
  forSome parent fun _ => setField ppid .children fun p => { p with children := p.children ++ [pid] }
  pure pid

def cleanupProcess (env : ForkEnv) (pid : Int) : Run Unit := do
  locked .processTable do
    let p ← getProc pid
    forSome p fun p => setField p.ppid .children fun q => { q with children := q.children.filter fun c => c ≠ pid }
  let _ ← locked .processTable (getProc pid)
  locked .satpRefcount (pure ())
  locked .swapMap (pure ())
  frameOps env.destroyChild
  locked .processTable (write fun s => { s with procs := s.procs.filter fun x => x.1 ≠ pid })

/-- The body of the `if let`, which keeps the table locked: clone the space and the trap frame. -/
def forkCopy (env : ForkEnv) (ppid child : Int) : Run Unit := do
  let p ← getProc ppid
  forSome p fun p => locked (.proc ppid .trapFrame) do
    frameOps env.clone
    onlyIf (env.cloneOk = false) (cleanupProcess env child)
    require (env.cloneOk = true) "fork failed: clone failed"
    locked (.newborn .trapFrame)
      (write (setProc child fun q => { q with sepc := p.sepc + 4, a0 := 0 }))

def sysFork (env : ForkEnv) : Run Unit := do
  let s ← read
  let child ← processNew env s.current
  locked .processTable (forkCopy env s.current child)
  enqueueWithPrio child prioNormal

/-! ## Messages -/

def messageSize : Nat := 64

/-- The process waits for a message that `sender` may give it. -/
def IpcState.receives (sender : Int) : IpcState → Bool
  | .receiving source _ => source == sender || source == -1
  | _ => false

def IpcState.receivesReply (sender : Int) : IpcState → Bool
  | .receivingReply source _ => source == sender || source == -1
  | _ => false

def setA0 (pid : Int) (v : Nat) : Run Unit := write (setProc pid fun p => { p with a0 := v })

def ipcOf (pid : Int) (s : Sys) : IpcState := (s.proc pid).elim .none ipc

def setIpc (pid : Int) (i : IpcState) : Run Unit := write (setProc pid fun p => { p with ipc := i })

/-- `table.get(&pid).unwrap()` -/
def unwrapProc (pid : Int) : Run Proc := do
  let p ← getProc pid
  p.elim (Cmd.fail "called Option::unwrap() on a None value") pure

/-- The target does not wait: queue the message with the sender and sleep. -/
def sendBlocked (me dest : Int) : Run Unit := do
  setField me .ipcState fun p => { p with ipc := .sending dest me none }
  setField dest .senders fun p => { p with senders := p.senders ++ [me] }

/-- The body of `sys_ipc_send` under the table lock; the result says whether the caller sleeps. -/
def ipcSend (n : Nat) (me dest : Int) (ptr : Nat) : Run Bool := do
  let _ ← unwrapProc me
  let done ← locked (.proc me .ipcState) do
    let s ← read
    let done := decide (ipcOf me s = .sendComplete)
    onlyIf (done = true) (setIpc me .none)
    pure done
  if done then do
    setA0 me 0
    pure false
  else if isUserPointerValid messageSize ptr 1 then do
    copyUser (segfault n) false ptr messageSize
    let t ← getProc dest
    t.elim (do setA0 me usizeMax; pure false) fun t => locked (.proc dest .ipcState) do
      let s ← read
      if (ipcOf dest s).receives me || (ipcOf dest s).receivesReply me then do
        setIpc dest (.messageAvailable me)
        enqueueWithPrio dest t.priority
        setA0 me 0
        pure false
      else do
        sendBlocked me dest
        pure true
  else do
    setA0 me usizeMax
    pure false

def sysIpcSend (n : Nat) (dest : Int) (ptr : Nat) : Run Unit := do
  let s ← read
  let sleeps ← locked .processTable (ipcSend n s.current dest ptr)
  onlyIf (sleeps = true) (schedule n)

/-- A message that is there is copied out. -/
def copyOut (n : Nat) (me : Int) (ptr : Nat) (source : Int) : Run Unit := do
  onlyIf (isUserPointerValid messageSize ptr 1 = false) (setA0 me usizeMax)
  require (isUserPointerValid messageSize ptr 1 = true) "invalid pointer"
  copyUser (segfault n) true ptr messageSize
  setA0 me source.toNat

/-- A deposited message is taken, and the next queued interrupt takes its place. -/
def receiveDeposited (n : Nat) (me : Int) (ptr : Nat) : Run Bool :=
  locked (.proc me .ipcState) do
    let s ← read
    match ipcOf me s with
    | .messageAvailable source => do
      copyOut n me ptr source
      let next ← locked (.proc me .irqPending) do
        let s ← read
        write (setProc me fun p => { p with irqPending := p.irqPending.tail })
        pure ((s.proc me).elim none fun p => p.irqPending.head?)
      setIpc me (next.elim .none .messageAvailable)
      pure true
    | _ => pure false

def receiveIrq (n : Nat) (me src : Int) (ptr : Nat) : Run Bool :=
  locked (.proc me .irqPending) do
    let s ← read
    (((s.proc me).elim [] irqPending).find? fun q => src == -1 || src == q).elim (pure false) fun source => do
      write (setProc me fun p => { p with irqPending := p.irqPending.erase source })
      copyOut n me ptr source
      pure true

/-- A queued sender hands its message over, or the receiver goes to sleep. -/
def receiveQueued (n : Nat) (me src : Int) (ptr : Nat) : Run Bool :=
  locked (.proc me .senders) do
    let s ← read
    match ((s.proc me).elim [] senders).find? fun q => src == -1 || src == q with
    | some sender => do
      write (setProc me fun p => { p with senders := p.senders.erase sender })
      let p ← unwrapProc sender
      locked (.proc sender .ipcState) do
        let s ← read
        match ipcOf sender s with
        | .sending _ source reply => do
          copyOut n me ptr source
          reply.elim (do setIpc sender .sendComplete; enqueueWithPrio sender p.priority)
            fun r => setIpc sender (.receivingReply me r)
        | _ => setA0 me usizeMax
      pure false
    | none => do
      setField me .ipcState fun p => { p with ipc := .receiving src ptr }
      pure true

def ipcReceive (n : Nat) (me src : Int) (ptr : Nat) : Run Bool := do
  let _ ← unwrapProc me
  let done ← receiveDeposited n me ptr
  if done then pure false
  else do
    let done ← receiveIrq n me src ptr
    if done then pure false else receiveQueued n me src ptr

def sysIpcReceive (n : Nat) (src : Int) (ptr : Nat) : Run Unit := do
  let s ← read
  let sleeps ← locked .processTable (ipcReceive n s.current src ptr)
  onlyIf (sleeps = true) (schedule n)

/-- The first half of a `sendrec`, under the sender's own IPC state. -/
def sendrecSend (n : Nat) (me dest : Int) (ptr : Nat) : Run Bool := do
  copyUser (segfault n) false ptr messageSize
  let t ← getProc dest
  t.elim (do setA0 me usizeMax; pure false) fun t => locked (.proc dest .ipcState) do
    let s ← read
    if (ipcOf dest s).receives me then do
      setIpc dest (.messageAvailable me)
      enqueueWithPrio dest t.priority
      setIpc me (.receivingReply dest ptr)
      pure true
    else do
      setIpc me (.sending dest me (some ptr))
      setField dest .senders fun p => { p with senders := p.senders ++ [me] }
      pure true

def ipcSendrec (n : Nat) (me dest : Int) (ptr : Nat) : Run Bool := do
  let _ ← unwrapProc me
  locked (.proc me .ipcState) do
    let s ← read
    match ipcOf me s with
    | .messageAvailable _ => do
      -- the pointer is not checked here
      copyUser (segfault n) true ptr messageSize
      setIpc me .none
      setA0 me 0
      pure false
    | .receivingReply _ _ => pure true
    | .none => sendrecSend n me dest ptr
    | _ => do
      setIpc me .none
      setA0 me usizeMax
      pure false

def sysIpcSendrec (n : Nat) (dest : Int) (ptr : Nat) : Run Unit := do
  let s ← read
  let sleeps ← locked .processTable (ipcSendrec n s.current dest ptr)
  onlyIf (sleeps = true) (schedule n)

/-! ## Sockets -/

/-- For a caller that has the table locked: wake who watches the listening socket. -/
def wakeOwner (pid : Int) (fd : Nat) : Run Unit := do
  let p ← getProc pid
  forSome p fun p => locked (.proc pid .fds) do
    match p.handle fd with
    | some (.channel ep) => wakeEndpointWatchers ep
    | _ => pure ()

def Sys.pushAccepted (sid fd : Nat) (s : Sys) : Sys :=
  { s with pendingAccepted := (sid, (s.pendingAccepted.lookup sid).getD [] ++ [fd]) ::
      s.pendingAccepted.filter fun x => x.1 ≠ sid }

def pushPendingAccepted (sid fd : Nat) : Run Unit := do
  locked .pendingAccepted (write (pushAccepted sid fd))
  let owner ← locked .socketOwner do
    let s ← read
    pure (s.socketOwner.lookup sid)
  forSome owner fun x => locked .processTable (wakeOwner x.1 x.2)

/-! ## The calls -/

inductive Call where
  | exit (pid status : Int)
  | exec (a : ExecArgs)
  | fork (env : ForkEnv)
  | send (dest : Int) (ptr : Nat)
  | receive (src : Int) (ptr : Nat)
  | sendrec (dest : Int) (ptr : Nat)
  | pushPendingAccepted (sid fd : Nat)

def Call.run (n : Nat) : Call → Run Unit
  | .exit pid status => Sync.exit n pid status
  | .exec a => sysExec n a
  | .fork env => sysFork env
  | .send dest ptr => sysIpcSend n dest ptr
  | .receive src ptr => sysIpcReceive n src ptr
  | .sendrec dest ptr => sysIpcSendrec n dest ptr
  | .pushPendingAccepted sid fd => Sync.pushPendingAccepted sid fd

end OpenV.Sync
