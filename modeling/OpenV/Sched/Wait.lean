import OpenV.Sched.Rendezvous

/- `sys_waitpid` and `reap_zombie` (`syscall/proc.rs`). The result of a child comes
   from the queue that `exit` fills, whoever it is about, or from a scan of the
   children for a zombie that matches the target, or from the scan that is made
   again after the target was stored, which takes any zombie for a group. -/
namespace OpenV.Sched

namespace Os

def wnohang : Nat := 1

/-- Whether a child is one that `waitpid(target)` of `parent` is for. -/
def matchesTarget (target : Int) (parent child : Pid) (s : Os) : Bool :=
  if 0 < target then target == child
  else if target = 0 then (s.proc child).elim false fun c => c.pgid == (s.proc parent).elim 0 Proc.pgid
  else if target = -1 then true
  else (s.proc child).elim false fun c => c.pgid == -target

end Os

def ProcState.status : ProcState → Option Int
  | .zombie status => some status
  | _ => none

namespace Os

/-- The exit status of a process that has ended and was not reaped. -/
def status (s : Os) (q : Pid) : Option Int := (s.proc q).bind fun p => ProcState.status p.state

def childrenOf (parent : Pid) (s : Os) : List Pid := (s.proc parent).elim [] Proc.children

/-- The first child that `accept` takes and that is a zombie. -/
def findZombie (parent : Pid) (accept : Pid → Bool) (s : Os) : Option (Pid × Int) :=
  (s.childrenOf parent).findSome? fun c => if accept c then (s.status c).map fun st => (c, st) else none

/-- `reap_zombie`; the child and its status are what the call returns. -/
def reapZombie (zpid : Pid) (zstatus : Int) (parent : Pid) (s : Os) : Os × Option (Pid × Int) :=
  let s := match s.proc zpid with
    | none => s
    | some _ =>
      Os.setProc parent (fun p => { p with children := p.children.filter fun c => c ≠ zpid, waitTarget := none })
        { s with procs := s.procs.remove zpid }
  (s.setA0 parent (pidToA0 zpid), some (zpid, zstatus))

/-- The last part of `sys_waitpid`: the target is stored and the children are looked at again. -/
def waitAgain (h : Nat) (me : Pid) (target : Int) (s : Os) : Os × Option (Pid × Int) :=
  match s.findZombie me fun c => if 0 < target then target == c else true with
  | some (zpid, zstatus) => s.reapZombie zpid zstatus me
  | none =>
    ((s.setProc me fun p => { p with waitTarget := some target, state := .stopped }).sleepAgain h me, none)

/-- `sys_waitpid`, and the child that it returns. The queue is empty when the target is stored, so that the second look
at it finds nothing. -/
def sysWaitpid (h : Nat) (target : Int) (statusPtr options : Nat) (s : Os) : Os × Option (Pid × Int) :=
  let me := s.current h
  if statusPtr ≠ 0 ∧ isUserPointerValid 4 statusPtr 1 = false then (s.setA0 me EFAULT, none)
  else
    match (s.proc me).elim [] Proc.waitResult with
    | (zpid, zstatus) :: rest => (s.setProc me fun p => { p with waitResult := rest }).reapZombie zpid zstatus me
    | [] =>
      match s.findZombie me fun c => s.matchesTarget target me c with
      | some (zpid, zstatus) => s.reapZombie zpid zstatus me
      | none =>
        if (s.childrenOf me).any (fun c => s.matchesTarget target me c) = false then (s.setA0 me usizeMax, none)
        else if options &&& wnohang ≠ 0 then (s.setA0 me 0, none)
        else s.waitAgain h me target

/-- The call stops its caller. -/
def waitpidSleeps (h : Nat) (target : Int) (statusPtr options : Nat) (s : Os) : Bool :=
  let me := s.current h
  (statusPtr == 0 || isUserPointerValid 4 statusPtr 1) && ((s.proc me).elim [] Proc.waitResult).isEmpty &&
    (s.findZombie me fun c => s.matchesTarget target me c).isNone &&
    (s.childrenOf me).any (fun c => s.matchesTarget target me c) && options &&& wnohang == 0 &&
    (s.findZombie me fun c => if 0 < target then target == c else true).isNone

end Os
end OpenV.Sched
