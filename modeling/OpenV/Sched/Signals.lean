import OpenV.Lib.Run
import OpenV.Sched.Exit

/- Signal masks and the delivery of signals: `sys_sigprocmask`, `sys_sigaction`,
   `sys_sigreturn` and `sys_tgkill` (`syscall/proc.rs`), the mask of
   `sys_epoll_pwait` (`syscall/epoll.rs`), and the check that `rust_trap_handler`
   makes before it goes back to user mode (`trap/mod.rs`).

   Two ways lead back to user mode: the end of a trap, where signals are looked
   at, and `schedule`, where they are not. -/
namespace OpenV.Sched

open Function

structure SigAction where
  handler : Nat
  mask : BitVec 32
  restorer : Nat
  deriving DecidableEq, Repr

/-- The signal frame, as far as `sys_sigreturn` uses it here. -/
structure SignalFrame where
  savedBlocked : BitVec 32
  sepc : Nat
  a0 : Nat
  deriving DecidableEq, Repr

def sigActionSize : Nat := 32
def signalFrameSize : Nat := 296

/-- What the end of a trap does with the process. -/
inductive Verdict where
  | resume
  /-- SIGCONT was taken -/
  | cont
  | handler (sig addr : Nat)
  | stop
  | die (status : Int)
  deriving DecidableEq, Repr

def Verdict.toUser : Verdict → Bool
  | .resume | .cont | .handler _ _ => true
  | .stop | .die _ => false

/-- `trailing_zeros` of a word that is not 0. -/
def lowestSet (w : BitVec 32) : Option Nat := (List.range 32).find? fun i => w.getLsbD i

def stopMask : BitVec 32 := 1#32 <<< 19 ||| 1#32 <<< 20 ||| 1#32 <<< 21 ||| 1#32 <<< 22

def isStopSignal (sig : Nat) : Bool :=
  sig == Os.sigStop || sig == Os.sigTstp || sig == Os.sigTtin || sig == Os.sigTtou

namespace Proc

def deliverable (p : Proc) : BitVec 32 := p.pendingSignals &&& ~~~p.blockedSignals

/-- The mask while the handler of `sig` runs. -/
def handlerMask (p : Proc) (sig : Nat) : BitVec 32 := p.blockedSignals ||| p.signalMasks sig ||| 1#32 <<< sig

/-- The signal check of `rust_trap_handler`; `frameOk` says whether the signal frame could be pushed. -/
def signalCheck (frameOk : Bool) (p : Proc) : Verdict × Proc :=
  match lowestSet p.deliverable with
  | none => (.resume, p)
  | some sig =>
    let p := { p with pendingSignals := p.pendingSignals &&& ~~~(1#32 <<< sig) }
    let handler := p.signalHandlers sig
    if sig = Os.sigKill then (.die (-9), p)
    else if sig = Os.sigCont then (.cont, { p with pendingSignals := p.pendingSignals &&& ~~~stopMask })
    else if isStopSignal sig ∧ handler = 0 then (.stop, { p with state := .stopped })
    else if handler = 1 ∨ handler = 0 ∧ sig = Os.sigChld then (.resume, p)
    else if handler = 0 then (.die (-sig), p)
    else if frameOk then
      (.handler sig handler, { p with blockedSignals := p.handlerMask sig, sepc := handler, a0 := sig })
    else (.die (-11), p)

end Proc

namespace Os

def trapReturn (dropped : List Pid) (h : Nat) (frameOk : Bool) (s : Os) : Os :=
  let pid := s.current h
  match s.proc pid with
  | none => s
  | some p =>
    let r := p.signalCheck frameOk
    let s := s.setProc pid fun _ => r.2
    match r.1 with
    | .resume | .handler _ _ => s
    | .cont => s.wakeStopped pid
    | .stop => s.leave h
    | .die status => (s.exit dropped pid status).leave h

/-- What `sys_sigprocmask` makes of the mask. -/
def updatedMask (how : Nat) (old set : BitVec 32) : Option (BitVec 32) :=
  match how with
  | 0 => some (old ||| set)
  | 1 => some (old &&& ~~~set)
  | 2 => some set
  | _ => none

def sysSigprocmask (h how setPtr oldPtr : Nat) (set : BitVec 32) (s : Os) : Os :=
  let pid := s.current h
  if oldPtr ≠ 0 ∧ isUserPointerValid 4 oldPtr 1 = false then s.setA0 pid EFAULT
  else if setPtr = 0 then s.setA0 pid 0
  else if isUserPointerValid 4 setPtr 1 = false then s.setA0 pid EFAULT
  else s.setProc pid fun p =>
    match updatedMask how p.blockedSignals set with
    | none => { p with a0 := EINVAL }
    | some mask => { p with blockedSignals := mask ||| 1#32 <<< sigKill ||| 1#32 <<< sigStop, a0 := 0 }

def sysSigaction (h sig actPtr oldPtr : Nat) (act : SigAction) (s : Os) : Os :=
  let pid := s.current h
  if 32 ≤ sig ∨ sig = sigKill then s.setA0 pid usizeMax
  else if oldPtr ≠ 0 ∧ isUserPointerValid sigActionSize oldPtr 1 = false then s.setA0 pid EFAULT
  else if actPtr = 0 then s.setA0 pid 0
  else if isUserPointerValid sigActionSize actPtr 1 = false then s.setA0 pid EFAULT
  else s.setProc pid fun p =>
    { p with
      signalHandlers := update p.signalHandlers sig act.handler
      signalMasks := update p.signalMasks sig act.mask
      signalRestorers := update p.signalRestorers sig act.restorer
      a0 := 0 }

/-- `sys_sigreturn`; `sp` is the stack pointer, `frame` what the process has there. -/
def sysSigreturn (h sp : Nat) (frame : SignalFrame) (s : Os) : Os :=
  let pid := s.current h
  if isUserPointerValid signalFrameSize sp 1 = false then s.setA0 pid EFAULT
  else s.setProc pid fun p => { p with sepc := frame.sepc, a0 := frame.a0, blockedSignals := frame.savedBlocked }

def sysTgkill (h : Nat) (tgid tid : Pid) (sig : Nat) (s : Os) : Os :=
  if (s.proc tid).map Proc.tgid = some tgid then
    let s := if sig ≠ 0 ∧ sig < 32 then
        s.setProc tid fun p => { p with pendingSignals := p.pendingSignals ||| 1#32 <<< (sig - 1) }
      else s
    s.setA0 (s.current h) 0
  else s.setA0 (s.current h) ESRCH

/-! ### The mask of `epoll_pwait` -/

def setEpoll (ep : Nat) (e : Epoll) (s : Os) : Os := { s with epolls := update s.epolls ep e }

/-- The mask that was saved, if one was, comes back. -/
def restoreSigmask (pid : Pid) (ep : Nat) (s : Os) : Os :=
  let old := (s.epolls ep).savedSigmask
  let s := s.setEpoll ep { s.epolls ep with savedSigmask := BitVec.allOnes 32 }
  if old = BitVec.allOnes 32 then s else s.setProc pid fun p => { p with blockedSignals := old }

/-- The mask given replaces that of the process, which is saved. -/
def applySigmask (pid : Pid) (ep : Nat) (mask : BitVec 32) (s : Os) : Os :=
  match s.proc pid with
  | none => s
  | some p =>
    (s.setEpoll ep { s.epolls ep with savedSigmask := p.blockedSignals }).setProc pid fun p =>
      { p with blockedSignals := mask }

/-- The caller goes to sleep until an event or its time comes. -/
def epollBlock (h : Nat) (pid : Pid) (ep wakeup : Nat) (s : Os) : Os :=
  let s := s.setEpoll ep { s.epolls ep with waiter := pid }
  let s := { s with sleepQueue := s.sleepQueue ++ [(pid, wakeup)] }
  (s.setProc pid fun p => { p.rewind with state := .stopped }).leave h

/-- The arguments of `sys_epoll_pwait`: `sigmask` is what `sigmaskPtr` points to, `ready` how many events there are,
`wakeup` when the timeout is over. -/
structure EpollArgs where
  ep : Nat
  eventsPtr : Nat
  maxevents : Nat
  zeroTimeout : Bool
  sigmaskPtr : Nat
  sigmask : BitVec 32
  ready : Nat
  wakeup : Nat

/-- The timeout is over: the process finds itself registered as the waiter. -/
def EpollArgs.timedOut (a : EpollArgs) (pid : Pid) (s : Os) : Bool := (s.epolls a.ep).waiter == pid

def EpollArgs.bufferOk (a : EpollArgs) : Bool := a.maxevents == 0 || isUserPointerValid 1 a.eventsPtr (a.maxevents * 16)

/-- The call looks at its mask: none is saved from an earlier round. -/
def EpollArgs.masks (a : EpollArgs) (s : Os) : Bool :=
  a.sigmaskPtr != 0 && (s.epolls a.ep).savedSigmask == BitVec.allOnes 32

def EpollArgs.atOnce (a : EpollArgs) : Bool := a.ready != 0 || a.zeroTimeout

def sysEpollPwait (h : Nat) (a : EpollArgs) (s : Os) : Os :=
  let pid := s.current h
  if a.timedOut pid s then
    ((s.setEpoll a.ep { s.epolls a.ep with waiter := 0 }).restoreSigmask pid a.ep).setA0 pid 0
  else if a.bufferOk = false then s.setA0 pid EFAULT
  else if a.masks s ∧ isUserPointerValid 1 a.sigmaskPtr 4 = false then s.setA0 pid EFAULT
  else
    let s := if a.masks s then s.applySigmask pid a.ep a.sigmask else s
    if a.atOnce then (s.restoreSigmask pid a.ep).setA0 pid a.ready
    else s.epollBlock h pid a.ep a.wakeup

end Os
end OpenV.Sched
