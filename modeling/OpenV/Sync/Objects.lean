import OpenV.Lib.Lock

/- What a hart sees of the mutexes (`sync.rs`): which one it takes, under which
   others, and what is done under it. The state holds what decides which lock is
   taken next: the process table with each process's handles, IPC state and
   family, the objects behind the handles with their reference counts and
   waiters, and the queues. Frame contents, message bodies and page tables decide
   no lock and are left out; what an access to user memory meets is an input,
   `Sys.page`.

   This file has the state, the wake-ups (`enqueue`, `wake_epoll_waiters`) and
   what happens when a handle is dropped. A value is dropped where its last
   reference goes away, so the `Drop` code below runs under whatever locks the
   code that drops it holds. -/
namespace OpenV.Sync

open Cmd

/-! ## The mutexes -/

inductive ProcField where
  | state | fds | children | senders | trapFrame | ipcState | irqPending | waitTarget | waitResult
  | cwd | signalHandlers | signalRestorers | signalMasks | ns
  deriving DecidableEq

inductive EndpointField where
  | peer | state | signalWaiters | observers | epollWaiters
  deriving DecidableEq

inductive Lock where
  | futexTable | lockWaiters | processTable | fileLocks
  | proc (pid : Int) (field : ProcField)
  /-- a mutex of the process object that the running call has just made -/
  | newborn (field : ProcField)
  | endpoint (id : Nat) (field : EndpointField)
  | pipeWaiters (id : Nat)
  | port (id : Nat)
  | activeTty | rootJob | job | pendingAccepted | socketOwner | irqHandlers | satpRefcount | swapMap
  | pageRefCounts | freeList | runQueue
  deriving DecidableEq

def ProcField.rank : ProcField → Nat
  | .state => 0
  | .fds => 1
  | .children => 2
  | .senders => 3
  | .trapFrame => 4
  | .ipcState => 5
  | .irqPending => 6
  | .waitTarget => 7
  | .waitResult => 8
  | .cwd => 9
  | .signalHandlers => 10
  | .signalRestorers => 11
  | .signalMasks => 12
  | .ns => 13

def EndpointField.rank : EndpointField → Nat
  | .peer => 0
  | .state => 1
  | .signalWaiters => 2
  | .observers => 3
  | .epollWaiters => 4

/-- The order in which the code below nests its locks, but for the wake-ups. -/
def Lock.rank : Lock → Nat
  | .futexTable => 0
  | .lockWaiters => 1
  | .processTable => 2
  | .fileLocks => 3
  | .proc _ f => 10 + f.rank
  | .newborn f => 30 + f.rank
  | .endpoint _ f => 50 + f.rank
  | .pipeWaiters _ => 55
  | .port _ => 56
  | .activeTty => 59
  | .rootJob => 60
  | .job => 61
  | .pendingAccepted => 62
  | .socketOwner => 63
  | .irqHandlers => 64
  | .satpRefcount => 65
  | .swapMap => 66
  | .pageRefCounts => 67
  | .freeList => 68
  | .runQueue => 70

/-! ## The state -/

inductive ProcState where
  | running
  | stopped
  | zombie (status : Int)
  deriving DecidableEq

/-- `IpcState`; of a message only its source is kept. -/
inductive IpcState where
  | none
  | sending (target source : Int) (replyPtr : Option Nat)
  | receiving (source : Int) (ptr : Nat)
  | receivingReply (source : Int) (ptr : Nat)
  | messageAvailable (source : Int)
  | sendComplete
  | lockWaiting
  deriving DecidableEq

/-- `KernelObject`; the kinds whose drop takes no lock are one. -/
inductive Obj where
  | pipeWrite (pipe : Nat)
  | channel (endpoint : Nat)
  | epoll (id : Nat)
  | vmo (id : Nat)
  | other
  deriving DecidableEq

structure Entry where
  handle : Nat
  obj : Obj
  cloexec : Bool
  deriving DecidableEq

structure Proc where
  state : ProcState
  fds : List Entry
  children : List Int
  senders : List Int
  sepc : Nat
  a0 : Nat
  ipc : IpcState
  irqPending : List Int
  waitTarget : Option Int
  waitResult : List (Int × Int)
  ppid : Int
  pgid : Int
  sid : Int
  priority : Int
  pendingSignals : Nat
  clearTid : Nat

structure Pipe where
  writers : Nat
  waiter : Int
  epollWaiters : List Nat

structure Epoll where
  refs : Nat
  waiter : Int

structure Observer where
  port : Nat
  trigger : Nat

structure Endpoint where
  refs : Nat
  peer : Nat
  peerClosed : Bool
  /-- the objects that each queued message carries -/
  queue : List (List Obj)
  waiter : Int
  signalWaiters : List (Int × Nat)
  observers : List Observer
  epollWaiters : List Nat

structure Port where
  packets : List Nat
  waiter : Int

structure Vmo where
  refs : Nat
  pages : Nat

structure FileLock where
  pid : Int
  write : Bool
  start : Int
  stop : Int
  deriving DecidableEq

/-- What a kernel access to a user page meets. -/
inductive Access where
  /-- no fault -/
  | ready
  /-- a store fault that the copy-on-write handler resolves -/
  | cow
  /-- a fault that swap-in resolves -/
  | swapped
  /-- a fault that demand paging resolves: the page has not been touched yet -/
  | demand
  /-- a fault that no handler resolves -/
  | refused
  deriving DecidableEq

structure Sys where
  procs : List (Int × Proc)
  current : Int
  nextPid : Int
  /-- `(priority, pid)`, in the order they were queued -/
  runQueue : List (Int × Int)
  pipes : Nat → Pipe
  epolls : Nat → Epoll
  endpoints : Nat → Endpoint
  ports : Nat → Port
  vmos : Nat → Vmo
  futexes : List (Nat × List Int)
  irqHandlers : List (Nat × Int)
  fileLocks : List (Nat × List FileLock)
  lockWaiters : List (Nat × List FileLock)
  pendingAccepted : List (Nat × List Nat)
  socketOwner : List (Nat × Int × Nat)
  /-- what a load (`false`) or store (`true`) at a page meets -/
  page : Nat → Bool → Access

open Sys

abbrev Run (α : Type) := Cmd (Hart Lock Sys) α

def relock : String := "Recursive lock deadlock detected!"

/-- `Mutex::lock`, the guard living through `c`. -/
def locked {α : Type} (m : Lock) (c : Run α) : Run α := Hart.locked relock m c

def read : Run Sys := Hart.read

def write (f : Sys → Sys) : Run Unit := Hart.write f

def Sys.proc (s : Sys) (pid : Int) : Option Proc := s.procs.lookup pid

def Sys.setProc (pid : Int) (f : Proc → Proc) (s : Sys) : Sys :=
  { s with procs := s.procs.map fun x => if x.1 = pid then (x.1, f x.2) else x }

def setAt {α : Type} (f : Nat → α) (i : Nat) (v : α) : Nat → α := fun j => if j = i then v else f j

def Sys.setPipe (i : Nat) (f : Pipe → Pipe) (s : Sys) : Sys := { s with pipes := setAt s.pipes i (f (s.pipes i)) }

def Sys.setEpoll (i : Nat) (f : Epoll → Epoll) (s : Sys) : Sys := { s with epolls := setAt s.epolls i (f (s.epolls i)) }

def Sys.setEndpoint (i : Nat) (f : Endpoint → Endpoint) (s : Sys) : Sys :=
  { s with endpoints := setAt s.endpoints i (f (s.endpoints i)) }

def Sys.setPort (i : Nat) (f : Port → Port) (s : Sys) : Sys := { s with ports := setAt s.ports i (f (s.ports i)) }

def Sys.setVmo (i : Nat) (f : Vmo → Vmo) (s : Sys) : Sys := { s with vmos := setAt s.vmos i (f (s.vmos i)) }

/-- `table.get(&pid)`, for a caller that has the table locked. -/
def getProc (pid : Int) : Run (Option Proc) := do
  let s ← read
  pure (s.proc pid)

/-- What is read from a process under one of its mutexes. -/
def field {α : Type} (pid : Int) (f : ProcField) (dflt : α) (get : Proc → α) : Run α :=
  locked (.proc pid f) do
    let s ← read
    pure ((s.proc pid).elim dflt get)

/-- What is written to a process under one of its mutexes. -/
def setField (pid : Int) (f : ProcField) (set : Proc → Proc) : Run Unit :=
  locked (.proc pid f) (write (setProc pid set))

/-! ## Wake-ups -/

def prioNormal : Int := 16

def enqueueWithPrio (pid prio : Int) : Run Unit :=
  locked .runQueue (write fun s => { s with runQueue := s.runQueue ++ [(prio, pid)] })

def enqueue (pid : Int) : Run Unit := do
  let p ← locked .processTable (getProc pid)
  enqueueWithPrio pid (p.elim prioNormal Proc.priority)

/-- `if waiter > 0 { enqueue(waiter) }` -/
def wake (waiter : Int) : Run Unit := onlyIf (0 < waiter) (enqueue waiter)

/-- Wake a process that is stopped; the guard of its state is dropped before it is queued. -/
def wakeStopped (pid prio : Int) : Run Unit := do
  let stopped ← locked (.proc pid .state) do
    let s ← read
    let stopped := (s.proc pid).elim false fun p => p.state == .stopped
    onlyIf stopped (write (setProc pid fun p => { p with state := .running }))
    pure stopped
  onlyIf stopped (enqueueWithPrio pid prio)

/-- One round of `wake_epoll_waiters`: a live instance has its waiter taken out and queued. -/
def wakeEpoll (e : Nat) : Run Unit := do
  let s ← read
  onlyIf (0 < (s.epolls e).refs) do
    write (setEpoll e fun x => { x with waiter := 0 })
    wake (s.epolls e).waiter

/-- `wake_epoll_waiters`, on the list that `m` guards. -/
def wakeEpollWaiters (m : Lock) (list : Sys → List Nat) (put : List Nat → Sys → Sys) : Run Unit :=
  locked m do
    let s ← read
    forEach (list s) wakeEpoll
    write fun s => put ((list s).filter fun e => 0 < (s.epolls e).refs) s

def wakePipeWatchers (i : Nat) : Run Unit :=
  wakeEpollWaiters (.pipeWaiters i) (fun s => (s.pipes i).epollWaiters)
    fun l => setPipe i fun x => { x with epollWaiters := l }

def wakeEndpointWatchers (i : Nat) : Run Unit :=
  wakeEpollWaiters (.endpoint i .epollWaiters) (fun s => (s.endpoints i).epollWaiters)
    fun l => setEndpoint i fun x => { x with epollWaiters := l }

/-! ## Frames -/

/-- The frame operations that page-table code makes, by the locks they take. -/
inductive FrameOp where
  | alloc
  | free
  | count
  deriving DecidableEq

def frameOp : FrameOp → Run Unit
  | .alloc => do locked .freeList (pure ()); locked .pageRefCounts (pure ())
  | .free => locked .pageRefCounts (locked .freeList (pure ()))
  | .count => locked .pageRefCounts (pure ())

def frameOps (ops : List FrameOp) : Run Unit := forEach ops frameOp

/-! ## Dropping a handle -/

def signalReadable : Nat := 1
def signalWritable : Nat := 2
def signalPeerClosed : Nat := 4

def queuePacket (port signals : Nat) : Run Unit := do
  locked (.port port) (write (setPort port fun x => { x with packets := x.packets ++ [signals] }))
  let s ← read
  write (setPort port fun x => { x with waiter := 0 })
  wake (s.ports port).waiter

def getSignals (ep : Nat) : Run Nat :=
  locked (.endpoint ep .state) do
    let s ← read
    pure ((if (s.endpoints ep).queue = [] then 0 else signalReadable) |||
      if (s.endpoints ep).peerClosed then signalPeerClosed else signalWritable)

def notifySignals (ep active : Nat) : Run Unit := do
  locked (.endpoint ep .signalWaiters) do
    let s ← read
    forEach (s.endpoints ep).signalWaiters fun w => onlyIf (active &&& w.2 ≠ 0) do
      write (setEndpoint ep fun x => { x with signalWaiters := x.signalWaiters.erase w })
      enqueue w.1
  locked (.endpoint ep .observers) do
    let s ← read
    forEach (s.endpoints ep).observers fun o =>
      onlyIf (active &&& o.trigger ≠ 0) (queuePacket o.port active)

/-- `Drop for PipeWriteHalf`; the sentinel's count goes down after the body has run. -/
def dropPipeWrite (i : Nat) : Run Unit := do
  let s ← read
  onlyIf ((s.pipes i).writers = 1) do
    write (setPipe i fun x => { x with waiter := 0 })
    wake (s.pipes i).waiter
    wakePipeWatchers i
  write (setPipe i fun x => { x with writers := x.writers - 1 })

/-- `Drop for EpollInstance`, when its last reference goes. -/
def dropEpoll (i : Nat) : Run Unit := do
  let s ← read
  write (setEpoll i fun x => { x with refs := x.refs - 1 })
  onlyIf ((s.epolls i).refs = 1) do
    write (setEpoll i fun x => { x with waiter := 0 })
    wake (s.epolls i).waiter

/-- `Drop for ChannelEndpoint`: tell the peer, if it is alive. -/
def closePeer (i : Nat) : Run Unit :=
  locked (.endpoint i .peer) do
    let s ← read
    let peer := (s.endpoints i).peer
    onlyIf (0 < (s.endpoints peer).refs) do
      locked (.endpoint peer .state) (write (setEndpoint peer fun x => { x with peerClosed := true }))
      write (setEndpoint peer fun x => { x with waiter := 0 })
      wake (s.endpoints peer).waiter
      locked (.endpoint peer .signalWaiters) do
        let s ← read
        write (setEndpoint peer fun x => { x with signalWaiters := [] })
        forEach (s.endpoints peer).signalWaiters fun w => enqueue w.1
      let active ← getSignals peer
      notifySignals peer active

/-- The last reference to an endpoint takes with it the objects that its queued messages carry. -/
def dropEndpoint (i : Nat) : Run (List Obj) := do
  let s ← read
  write (setEndpoint i fun x => { x with refs := x.refs - 1 })
  if (s.endpoints i).refs = 1 then do
    closePeer i
    let s ← read
    write (setEndpoint i fun x => { x with queue := [] })
    pure (s.endpoints i).queue.flatten
  else pure []

/-- `Drop for Vmo`, when its last reference goes: every page is freed. -/
def dropVmo (i : Nat) : Run Unit := do
  let s ← read
  write (setVmo i fun x => { x with refs := x.refs - 1 })
  onlyIf ((s.vmos i).refs = 1) (frameOps (List.replicate (s.vmos i).pages .free))

/-- Drop one object; returned are the objects that it owned, which are dropped next. -/
def dropObj : Obj → Run (List Obj)
  | .pipeWrite i => do dropPipeWrite i; pure []
  | .channel i => dropEndpoint i
  | .epoll i => do dropEpoll i; pure []
  | .vmo i => do dropVmo i; pure []
  | .other => pure []

/-- Drop objects one after the other, each with all that it owned, for at most `n` of them. -/
def dropObjs : Nat → List Obj → Run Unit
  | 0, _ => pure ()
  | _, [] => pure ()
  | n + 1, o :: os => do
    let inner ← dropObj o
    dropObjs n (inner ++ os)

/-- `HandleTable::close_all` and `HandleTable::close_on_exec`: close the handles that `which` picks. -/
def closeHandles (n : Nat) (which : Entry → Bool) (pid : Int) : Run Unit := do
  let s ← read
  let fds := (s.proc pid).elim [] Proc.fds
  write (setProc pid fun p => { p with fds := fds.filter fun e => !which e })
  dropObjs n ((fds.filter which).map Entry.obj)

def closeAll (n : Nat) : Int → Run Unit := closeHandles n fun _ => true

def closeOnExec (n : Nat) : Int → Run Unit := closeHandles n Entry.cloexec

end OpenV.Sync
