import OpenV.Kernel.State
import OpenV.Lib.Table

/- Processes as the scheduler and the calls that block see them
   (`posix/process.rs`, `posix/spawn.rs`, `syscall/proc.rs`, `syscall/ipc.rs`,
   `trap/mod.rs`): their states, program counters, queues and signals, the run
   queue and what runs on each hart.

   A call is one step: it runs under the locks that order it with the others. The
   page tables, the handle tables and the lock table are in other parts of this
   development; what a call reads from user memory is an argument of the step.

   `Proc.trap` remembers what brought the process into the kernel last. It is not
   part of the kernel's state: it says what the saved program counter means. -/
namespace OpenV.Sched

abbrev Pid := Int

/-- A rendezvous message (`ipc/msg.rs`). -/
structure Message where
  source : Pid
  type : Int
  data : List (BitVec 8)
  deriving DecidableEq, Repr

inductive IpcState where
  | none
  | sending (target : Pid) (msg : Message) (replyPtr : Option Nat)
  | receiving (source : Pid) (ptr : Nat)
  | receivingReply (source : Pid) (ptr : Nat)
  | messageAvailable (msg : Message)
  | sendComplete
  | lockWaiting
  deriving DecidableEq, Repr

/-- The calls that can block, with the registers they read; the others are one. -/
inductive Call where
  | send (dest : Pid) (ptr : Nat)
  | receive (src : Pid) (ptr : Nat)
  | sendrec (dest : Pid) (ptr : Nat)
  | waitpid (target : Int) (statusPtr options : Nat)
  | mailboxReceive
  | readTty
  | readChannel (ep : Nat)
  | readPipe (pipe : Nat)
  | channelRead (ep : Nat)
  | portWait
  | objectWait
  | accept (sid : Nat)
  | sockRecv
  | epollPwait (ep : Nat)
  | nanosleep
  | futexWait (addr : Nat)
  | lockWait
  | other
  deriving DecidableEq, Repr

/-- What brought a process into the kernel, and the address of the instruction. -/
inductive Trap where
  | ecall (pc : Nat) (call : Call)
  | interrupt (pc : Nat)
  deriving DecidableEq, Repr

def prioNormal : Int := 16

structure Proc where
  state : ProcState := .running
  tgid : Pid := 0
  ppid : Pid := 0
  pgid : Pid := 0
  sid : Pid := 0
  priority : Int := prioNormal
  children : List Pid := []
  sepc : Nat := 0
  a0 : Nat := 0
  trap : Trap := .interrupt 0
  /-- the root of the page table -/
  space : Nat := 0
  clearTid : Nat := 0
  waitTarget : Option Int := none
  waitResult : List (Pid × Int) := []
  mailbox : List (Pid × List (BitVec 8)) := []
  mailboxWaiter : Bool := false
  ipc : IpcState := .none
  senders : List Pid := []
  irqPending : List Message := []
  pendingSignals : BitVec 32 := 0
  blockedSignals : BitVec 32 := 0
  signalHandlers : Nat → Nat := fun _ => 0
  signalRestorers : Nat → Nat := fun _ => 0
  signalMasks : Nat → BitVec 32 := fun _ => 0

/-- A record lock, held or waited for: type 0 to read, 1 to write. -/
structure FileLock where
  pid : Pid
  type : Int
  start : Int
  stop : Int
  deriving DecidableEq, Repr

structure Epoll where
  waiter : Pid := 0
  /-- all ones when no mask is saved -/
  savedSigmask : BitVec 32 := BitVec.allOnes 32
  deriving DecidableEq, Repr

/-- A channel endpoint; of a message only its sizes matter here. -/
structure Endpoint where
  handles : Nat := 0
  /-- references kept by calls that never returned -/
  lost : Nat := 0
  peer : Nat := 0
  peerClosed : Bool := false
  queue : List (Nat × Nat) := []
  waiter : Pid := 0
  deriving DecidableEq, Repr

structure Pipe where
  data : List (BitVec 8) := []
  readers : Nat := 0
  writers : Nat := 0
  waiter : Pid := 0
  /-- the lock on the bytes -/
  locked : Bool := false
  deriving DecidableEq, Repr

/-- A listening socket: the processes in `accept` and the connections not yet accepted. -/
structure Socket where
  waiting : List Pid := []
  accepted : List Nat := []
  deriving DecidableEq, Repr

structure Os where
  procs : Table Pid Proc
  nextPid : Pid := 1
  /-- `(priority, pid)`, in the order they were queued -/
  runQueue : List (Int × Pid) := []
  /-- what runs on each hart, 0 for nothing -/
  current : Nat → Pid := fun _ => 0
  sleepQueue : List (Pid × Nat) := []
  futexes : Nat → List Pid := fun _ => []
  /-- the keys of the table of lock waiters -/
  waitedFiles : List Nat := []
  fileLocks : Nat → List FileLock := fun _ => []
  lockWaiters : Nat → List FileLock := fun _ => []
  epolls : Nat → Epoll := fun _ => {}
  endpoints : Nat → Endpoint := fun _ => {}
  pipes : Nat → Pipe := fun _ => {}
  sockets : Nat → Socket := fun _ => {}

namespace Os

def proc (s : Os) (pid : Pid) : Option Proc := s.procs.get pid

def setProc (pid : Pid) (f : Proc → Proc) (s : Os) : Os := { s with procs := s.procs.modify pid f }

/-- The given processes, all of them waiting to run. -/
def start (ps : List (Pid × Proc)) : Os where
  procs := ps.foldl (fun t x => t.insert x.1 x.2) Table.empty
  nextPid := ps.length + 1
  runQueue := ps.map fun x => (x.2.priority, x.1)

/-- The processes in the run queue. -/
def queued (s : Os) : List Pid := s.runQueue.map Prod.snd

def enqueueWithPrio (pid : Pid) (prio : Int) (s : Os) : Os := { s with runQueue := s.runQueue ++ [(prio, pid)] }

def enqueue (pid : Pid) (s : Os) : Os := s.enqueueWithPrio pid ((s.proc pid).elim prioNormal Proc.priority)

/-- `if waiter > 0 { enqueue(waiter) }` -/
def wake (waiter : Pid) (s : Os) : Os := if 0 < waiter then s.enqueue waiter else s

/-- The hart goes to `schedule`. -/
def leave (h : Nat) (s : Os) : Os := { s with current := Function.update s.current h 0 }

section
variable (s : Os) (p q : Pid) (f : Proc → Proc) (prio : Int) (h : Nat)

theorem proc_setProc : (s.setProc p f).proc q = if q = p then (s.proc q).map f else s.proc q := rfl

@[simp] theorem proc_setProc_self : (s.setProc p f).proc p = (s.proc p).map f := Table.get_modify_self _ _ _

theorem proc_setProc_of_ne {s : Os} {p q : Pid} {f : Proc → Proc} (hne : q ≠ p) : (s.setProc p f).proc q = s.proc q :=
  Table.get_modify_of_ne _ _ hne

/-- What holds of the changed process and held of the others holds of all. -/
theorem forall_setProc {s : Os} {k : Pid} {f : Proc → Proc} {P : Pid → Proc → Prop}
    (hk : ∀ p, s.proc k = some p → P k (f p)) (hold : ∀ q p, q ≠ k → s.proc q = some p → P q p) (q : Pid) (p : Proc)
    (hp : (s.setProc k f).proc q = some p) : P q p := by
  by_cases hq : q = k
  · subst hq
    rw [proc_setProc, if_pos rfl] at hp
    obtain ⟨p0, hp0, rfl⟩ := Option.map_eq_some_iff.mp hp
    exact hk p0 hp0
  · rw [proc_setProc, if_neg hq] at hp
    exact hold q p hq hp

@[simp] theorem queued_setProc : (s.setProc p f).queued = s.queued := rfl
@[simp] theorem current_setProc : (s.setProc p f).current = s.current := rfl

theorem mem_keys_of {s : Os} {q : Pid} {p : Proc} (hp : s.proc q = some p) : q ∈ s.procs.keys :=
  (s.procs.mem q).mpr (by rw [← Os.proc, hp]; rfl)

@[simp] theorem proc_enqueueWithPrio : (s.enqueueWithPrio p prio).proc q = s.proc q := rfl
@[simp] theorem queued_enqueueWithPrio : (s.enqueueWithPrio p prio).queued = s.queued ++ [p] := by
  simp [queued, enqueueWithPrio]

@[simp] theorem proc_enqueue : (s.enqueue p).proc q = s.proc q := rfl
@[simp] theorem queued_enqueue : (s.enqueue p).queued = s.queued ++ [p] := queued_enqueueWithPrio s p _
@[simp] theorem current_enqueue : (s.enqueue p).current = s.current := rfl

@[simp] theorem proc_leave : (s.leave h).proc q = s.proc q := rfl
@[simp] theorem queued_leave : (s.leave h).queued = s.queued := rfl

end
end Os

/-! ## The scheduler -/

/-- The entry that `schedule` takes: the first of the lowest priority number. -/
def nextEntry : List (Int × Pid) → Option (Int × Pid)
  | [] => none
  | x :: xs => match nextEntry xs with
    | none => some x
    | some y => if y.1 < x.1 then some y else some x

def ProcState.isZombie : ProcState → Bool
  | .zombie _ => true
  | _ => false

namespace Os

/-- One round of the loop of `schedule` on an idle hart: an entry whose process is gone or dead is thrown away. -/
def dispatch (h : Nat) (s : Os) : Os :=
  if s.current h = 0 then
    match nextEntry s.runQueue with
    | none => s
    | some x =>
      let s := { s with runQueue := s.runQueue.erase x }
      match s.proc x.2 with
      | none => s
      | some p =>
        if ProcState.isZombie p.state then s
        else { s.setProc x.2 fun p => { p with state := .running } with
          current := Function.update s.current h x.2 }
  else s

end Os

/-! ## Entering the kernel -/

/-- The call that the process makes when it goes on: its program counter is back at the `ecall`. -/
def Proc.again (p : Proc) : Option (Nat × Call) :=
  match p.trap with
  | .ecall pc call => if p.sepc = pc then some (pc, call) else none
  | .interrupt _ => none

/-- An `ecall` at `pc`: the program counter is saved past it. -/
def Proc.enter (pc : Nat) (call : Call) (p : Proc) : Proc := { p with trap := .ecall pc call, sepc := pc + 4 }

/-- `tf.sepc -= 4`: the call is made again when the process goes on. -/
def Proc.rewind (p : Proc) : Proc := { p with sepc := p.sepc - 4 }

namespace Os

/-- The process on hart `h`, if its next call can be `call` at `pc`: a process that was turned back makes the call it
was turned back to. -/
def caller (s : Os) (h pc : Nat) (call : Call) : Option Pid :=
  (s.proc (s.current h)).bind fun p =>
    if p.again = none ∨ p.again = some (pc, call) then some (s.current h) else none

/-- A call made on hart `h`; nothing happens if no process there can make it. -/
def syscall (h pc : Nat) (call : Call) (body : Os → Os) (s : Os) : Os :=
  (s.caller h pc call).elim s fun me => body (s.setProc me (Proc.enter pc call))

/-- `tf.regs[10] = v` -/
def setA0 (me : Pid) (v : Nat) (s : Os) : Os := s.setProc me fun p => { p with a0 := v }

/-- Turn the caller back to its call and leave the hart. -/
def sleepAgain (h : Nat) (me : Pid) (s : Os) : Os := (s.setProc me Proc.rewind).leave h

end Os

theorem Proc.again_enter (p : Proc) (pc : Nat) (call : Call) : (p.enter pc call).again = none := by
  simp [Proc.again, Proc.enter]

theorem nextEntry_mem : ∀ {xs : List (Int × Pid)} {x : Int × Pid}, nextEntry xs = some x → x ∈ xs
  | [], _, h => by simp [nextEntry] at h
  | y :: ys, x, h => by
    unfold nextEntry at h
    cases hr : nextEntry ys with
    | none =>
      rw [hr] at h
      exact Option.some.inj h ▸ (.head _)
    | some z =>
      rw [hr] at h
      simp only at h
      split at h
      · exact .tail _ (nextEntry_mem (Option.some.inj h ▸ hr))
      · exact Option.some.inj h ▸ (.head _)

end OpenV.Sched
