import OpenV.Sched.Rendezvous

/- Calls that stop their caller until something wakes it, and what wakes it: the
   timer (`posix/process.rs`), `sys_nanosleep`, `sys_futex` (`syscall/proc.rs`),
   record locks and mailboxes (`syscall/ipc.rs`), and `sys_set_process_state`
   (`syscall/pm.rs`). The queues hold pids and nothing takes a pid out when its
   process stops waiting for another reason. -/
namespace OpenV.Sched

open Function

def EAGAIN : Nat := usizeMax - 10

/-- A signed 64-bit number as an unsigned one. -/
def toU64 (x : Int) : Nat := (x % 2 ^ 64).toNat

/-! ## The timer -/

/-- `Vec::swap_remove` -/
def swapRemove {α : Type} (l : List α) (i : Nat) : List α :=
  match l.getLast? with
  | none => l
  | some x => (l.set i x).dropLast

/-- The loop of `wake_sleepers` from index `i` on: those to wake, and the queue after it. -/
def sweep (now : Nat) : Nat → List (Pid × Nat) → Nat → List Pid × List (Pid × Nat)
  | 0, l, _ => ([], l)
  | n + 1, l, i =>
    match l[i]? with
    | none => ([], l)
    | some x =>
      if x.2 ≤ now then
        let r := sweep now n (swapRemove l i) i
        (x.1 :: r.1, r.2)
      else sweep now n l (i + 1)

namespace Os

/-- Those whose time has come, in the order they are woken. -/
def expired (now : Nat) (s : Os) : List Pid := (sweep now s.sleepQueue.length s.sleepQueue 0).1

def wakeSleepers (now : Nat) (s : Os) : Os :=
  { s with sleepQueue := (sweep now s.sleepQueue.length s.sleepQueue 0).2 }.resumeAll (s.expired now)

/-- The caller is stopped, and its hart goes on. -/
def stopCaller (h : Nat) (me : Pid) (s : Os) : Os := (s.setProc me fun p => { p with state := .stopped }).leave h

/-- `sys_nanosleep`; the structure at the pointer has `sec` and `nsec`. -/
def sysNanosleep (h ptr now : Nat) (sec nsec : Int) (s : Os) : Os :=
  let me := s.current h
  if ptr = 0 ∨ isUserPointerValid 16 ptr 1 = false then s.setA0 me EFAULT
  else
    let wakeup := (now + (toU64 sec * 10000000 + toU64 nsec / 100)) % 2 ^ 64
    ({ s with sleepQueue := s.sleepQueue ++ [(me, wakeup)] }.setA0 me 0).stopCaller h me

/-! ## Futexes -/

def futexWait : Nat := 0
def futexWake : Nat := 1

/-- Who a `FUTEX_WAKE` takes out of the table: no more than `val`, where 0 counts as 1. -/
def drained (addr val : Nat) (s : Os) : List Pid := (s.futexes addr).take (if val = 0 then 1 else val)

/-- `sys_futex`; `word` is what is at the address. The table has the address for its key, and nothing else. -/
def sysFutex (h addr op val word : Nat) (s : Os) : Os :=
  let me := s.current h
  if isUserPointerValid 4 addr 1 = false then s.setA0 me EFAULT
  else if op = futexWait then
    if word ≠ val % 2 ^ 32 then s.setA0 me EAGAIN
    else ({ s with futexes := update s.futexes addr (s.futexes addr ++ [me]) }.setA0 me 0).stopCaller h me
  else if op = futexWake then
    let woken := s.drained addr val
    (Os.resumeAll woken
      { s with futexes := update s.futexes addr ((s.futexes addr).drop (if val = 0 then 1 else val)) }).setA0
      me woken.length
  else s.setA0 me usizeMax

/-! ## Record locks -/

def i64Max : Int := 2 ^ 63 - 1

/-- `F_UNLCK` -/
def unlock : Int := 2

/-- `resolve_range` -/
def resolveRange (start len : Int) : Int × Int :=
  let start := max start 0
  (start, if len = 0 then i64Max else min (start + len) i64Max)

/-- `release_range` -/
def releaseRange (file : Nat) (pid : Pid) (start stop : Int) (s : Os) : Os :=
  Os.wakeLockWaiters file
    { s with
      fileLocks := update s.fileLocks file
        ((s.fileLocks file).filter fun e => e.pid != pid || !(FileLock.overlaps ⟨pid, 0, start, stop⟩ e)) }

/-- `F_SETLK` and `F_SETLKW` of `sys_fcntl`, once the handle is known to be a file. -/
def setLock (h : Nat) (wait : Bool) (file : Nat) (type start len : Int) (s : Os) : Os :=
  let me := s.current h
  let range := resolveRange start len
  let req : FileLock := ⟨me, type, range.1, range.2⟩
  if type = unlock then (s.releaseRange file me range.1 range.2).setA0 me 0
  else if (s.fileLocks file).any req.conflicts = false then
    { s with fileLocks := update s.fileLocks file (acquire (s.fileLocks file) req) }.setA0 me 0
  else if wait = false then s.setA0 me EAGAIN
  else
    (Os.setIpc me .lockWaiting { s with
        lockWaiters := update s.lockWaiters file (s.lockWaiters file ++ [req])
        waitedFiles := if file ∈ s.waitedFiles then s.waitedFiles else s.waitedFiles ++ [file] }).stopCaller h me

/-! ## Mailboxes -/

/-- `sys_mailbox_send`; `data` is what is at the pointer. -/
def sysMailboxSend (h : Nat) (dest : Pid) (ptr len : Nat) (data : List (BitVec 8)) (s : Os) : Os :=
  let me := s.current h
  if 4096 < len ∨ isUserPointerValid 1 ptr len = false then s.setA0 me usizeMax
  else
    match s.proc dest with
    | none => s.setA0 me usizeMax
    | some p =>
      let s := s.setProc dest fun p => { p with mailbox := p.mailbox ++ [(me, data)], mailboxWaiter := false }
      (if p.mailboxWaiter then s.wakeStopped dest else s).setA0 me 0

/-- `sys_mailbox_receive`: the message is gone even when the pointer turns out to be bad. -/
def sysMailboxReceive (h ptr maxLen : Nat) (s : Os) : Os :=
  let me := s.current h
  match s.proc me with
  | none => s
  | some p =>
    match p.mailbox with
    | (_, data) :: rest =>
      let len := min maxLen data.length
      (s.setProc me fun p => { p with mailbox := rest }).setA0 me
        (if isUserPointerValid 1 ptr len = false then usizeMax else len)
    | [] => (s.setProc me fun p => { p with mailboxWaiter := true, state := .stopped }).sleepAgain h me

/-- `sys_set_process_state`, by a caller with or without `CAP_PROCESS`. -/
def sysSetProcessState (h : Nat) (cap : Bool) (target : Pid) (state : Nat) (s : Os) : Os :=
  let me := s.current h
  if cap = false then s.setA0 me EPERM
  else match s.proc target with
    | none => s.setA0 me usizeMax
    | some _ =>
      (if state = 1 then s.wakeStopped target
        else s.setProc target fun p => { p with state := .stopped }).setA0 me 0

end Os

end OpenV.Sched
