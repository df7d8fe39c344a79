import OpenV.Lib.Run
import OpenV.Sched.Exit

/- Rendezvous messages (`syscall/ipc.rs`): `sys_ipc_send`, `sys_ipc_receive`,
   `sys_ipc_sendrec` and the messages that interrupts inject (`kernel_send_msg`,
   `trap/interrupt.rs`).

   The state word of a process doubles as a mailbox for one message, and a call
   that blocks turns the program counter back so that it is made again when the
   process is woken; the second round finds the result in the state word. The
   history records what was sent, received and injected. -/
namespace OpenV.Sched

inductive Event where
  /-- a send or the first half of a sendrec was accepted -/
  | sent (src dest : Pid) (msg : Message)
  /-- a receive with this filter returned a message -/
  | received (pid filter : Pid) (msg : Message)
  /-- a sendrec to `dest` returned a message -/
  | replied (pid dest : Pid) (msg : Message)
  /-- an interrupt for `pid` -/
  | injected (pid : Pid) (msg : Message)
  deriving DecidableEq, Repr

def messageSize : Nat := 64

/-- A pid as the value of a register. -/
def pidToA0 (pid : Pid) : Nat := (pid % 2 ^ 64).toNat

/-- Source filters: a process, or -1 for any. -/
def accepts (filter source : Pid) : Bool := filter == -1 || filter == source

namespace IpcState

def receives (sender : Pid) : IpcState → Bool
  | .receiving source _ => accepts source sender
  | _ => false

def receivesReply (sender : Pid) : IpcState → Bool
  | .receivingReply source _ => accepts source sender
  | _ => false

end IpcState

namespace Os

/-- Give a waiting process its message. -/
def deposit (dest : Pid) (msg : Message) (s : Os) : Os :=
  (s.setProc dest fun t => { t with ipc := .messageAvailable msg }).enqueue dest

def setIpc (pid : Pid) (ipc : IpcState) (s : Os) : Os := s.setProc pid fun p => { p with ipc := ipc }

/-- The caller waits in the queue of `dest`. -/
def queueUp (h : Nat) (me dest : Pid) (msg : Message) (replyPtr : Option Nat) (s : Os) : Os :=
  ((s.setIpc me (.sending dest msg replyPtr)).setProc dest fun t => { t with senders := t.senders ++ [me] }).sleepAgain
    h me

/-- `sys_ipc_send`; `body` is the message at `ptr`. Nothing comes out of a kernel panic: a missing caller, or a send to
oneself, which takes the mutex of the state word twice. -/
def ipcSend (h : Nat) (me dest : Pid) (ptr : Nat) (body : Message) (s : Os) : Option (Os × List Event) :=
  match s.proc me with
  | none => none
  | some p =>
    if p.ipc = .sendComplete then some ((s.setIpc me .none).setA0 me 0, [])
    else if isUserPointerValid messageSize ptr 1 = false then some (s.setA0 me usizeMax, [])
    else
      let msg := { body with source := me }
      match s.proc dest with
      | none => some (s.setA0 me usizeMax, [])
      | some t =>
        if t.ipc.receives me || t.ipc.receivesReply me then
          some ((s.deposit dest msg).setA0 me 0, [.sent me dest msg])
        else if dest = me then none
        else some (s.queueUp h me dest msg none, [.sent me dest msg])

/-- The message in the state word is taken, and a pending interrupt takes its place. -/
def takeMessage (me : Pid) (s : Os) : Os :=
  s.setProc me fun p =>
    match p.irqPending with
    | [] => { p with ipc := .none }
    | next :: rest => { p with ipc := .messageAvailable next, irqPending := rest }

/-- A sender is done, or waits for the reply. -/
def handOver (sender me : Pid) (replyPtr : Option Nat) (s : Os) : Os :=
  match replyPtr with
  | some r => s.setIpc sender (.receivingReply me r)
  | none => (s.setIpc sender .sendComplete).enqueue sender

/-- The last part of `sys_ipc_receive`: a sender of the queue, or sleep. -/
def receiveQueued (h : Nat) (me src : Pid) (ptr : Nat) (p : Proc) (s : Os) : Option (Os × List Event) :=
  match p.senders.find? fun q => accepts src q with
  | none => some ((s.setIpc me (.receiving src ptr)).sleepAgain h me, [])
  | some sender =>
    let s := s.setProc me fun p => { p with senders := p.senders.erase sender }
    match s.proc sender with
    | none => none
    | some q =>
      match q.ipc with
      | .sending _ msg replyPtr =>
        if isUserPointerValid messageSize ptr 1 = false then some (s.setA0 me usizeMax, [])
        else some ((s.handOver sender me replyPtr).setA0 me (pidToA0 msg.source), [.received me src msg])
      | _ => some (s.setA0 me usizeMax, [])

/-- `sys_ipc_receive` -/
def ipcReceive (h : Nat) (me src : Pid) (ptr : Nat) (s : Os) : Option (Os × List Event) :=
  match s.proc me with
  | none => none
  | some p =>
    match p.ipc with
    | .messageAvailable msg =>
      if isUserPointerValid messageSize ptr 1 = false then some (s.setA0 me usizeMax, [])
      else some ((s.takeMessage me).setA0 me (pidToA0 msg.source), [.received me src msg])
    | _ =>
      match p.irqPending.find? fun m => accepts src m.source with
      | some msg =>
        -- the message is out of the queue before the pointer is looked at
        let s := s.setProc me fun p => { p with irqPending := p.irqPending.erase msg }
        if isUserPointerValid messageSize ptr 1 = false then some (s.setA0 me usizeMax, [])
        else some (s.setA0 me (pidToA0 msg.source), [.received me src msg])
      | none => s.receiveQueued h me src ptr p

/-- `sys_ipc_sendrec`; the pointer is not checked. -/
def ipcSendrec (h : Nat) (me dest : Pid) (ptr : Nat) (body : Message) (s : Os) : Option (Os × List Event) :=
  match s.proc me with
  | none => none
  | some p =>
    match p.ipc with
    | .messageAvailable msg => some ((s.setIpc me .none).setA0 me 0, [.replied me dest msg])
    | .receivingReply _ _ => some (s.sleepAgain h me, [])
    | .none =>
      let msg := { body with source := me }
      match s.proc dest with
      | none => some (s.setA0 me usizeMax, [])
      | some t =>
        if dest = me then none
        else if t.ipc.receives me then
          some (((s.deposit dest msg).setIpc me (.receivingReply dest ptr)).sleepAgain h me, [.sent me dest msg])
        else some (s.queueUp h me dest msg (some ptr), [.sent me dest msg])
    | _ => some ((s.setIpc me .none).setA0 me usizeMax, [])

/-! ## Interrupts -/

/-- The message that an external interrupt is turned into. -/
def irqMessage (irq : Nat) : Message where
  source := -2
  type := -2
  data := [BitVec.ofNat 8 irq, BitVec.ofNat 8 (irq >>> 8), BitVec.ofNat 8 (irq >>> 16), BitVec.ofNat 8 (irq >>> 24)] ++
    List.replicate 52 0

/-- `kernel_send_msg` -/
def kernelSendMsg (pid : Pid) (msg : Message) (s : Os) : Os :=
  match s.proc pid with
  | none => s
  | some p =>
    if p.ipc.receives msg.source then s.deposit pid msg
    else if p.ipc = .none then s.setIpc pid (.messageAvailable msg)
    else s.setProc pid fun p => { p with irqPending := p.irqPending ++ [msg] }

end Os

/-- An interrupt at `pc`; a process that is about to make a call again stays where it is. -/
def Proc.interrupted (pc : Nat) (p : Proc) : Proc :=
  if p.again.isSome then p else { p with trap := .interrupt pc, sepc := pc }

/-- The timer takes the hart from its process. -/
def Os.preempt (h pc : Nat) (s : Os) : Os :=
  if s.current h = 0 then s else ((s.setProc (s.current h) (Proc.interrupted pc)).enqueue (s.current h)).leave h

/-- The kernel and what has happened so far. -/
structure Hist where
  os : Os
  log : List Event := []

inductive RvOp where
  | dispatch (h : Nat)
  | preempt (h pc : Nat)
  | send (h pc : Nat) (dest : Pid) (ptr : Nat) (body : Message)
  | receive (h pc : Nat) (src : Pid) (ptr : Nat)
  | sendrec (h pc : Nat) (dest : Pid) (ptr : Nat) (body : Message)
  | irq (pid : Pid) (n : Nat)

namespace RvOp

/-- A call on a hart, where a process can make it. -/
def viaCall (h pc : Nat) (call : Call) (body : Pid → Os → Option (Os × List Event)) (s : Os) :
    Option (Os × List Event) :=
  (s.caller h pc call).elim (some (s, [])) fun me => body me (s.setProc me (Proc.enter pc call))

def step : RvOp → Os → Option (Os × List Event)
  | dispatch h, s => some (s.dispatch h, [])
  | preempt h pc, s => some (s.preempt h pc, [])
  | send h pc dest ptr body, s => viaCall h pc (.send dest ptr) (fun me => Os.ipcSend h me dest ptr body) s
  | receive h pc src ptr, s => viaCall h pc (.receive src ptr) (fun me => Os.ipcReceive h me src ptr) s
  | sendrec h pc dest ptr body, s => viaCall h pc (.sendrec dest ptr) (fun me => Os.ipcSendrec h me dest ptr body) s
  | irq pid n, s =>
    some (s.kernelSendMsg pid (Os.irqMessage n), if (s.proc pid).isSome then [.injected pid (Os.irqMessage n)] else [])

def run (op : RvOp) : Cmd Hist Unit := fun x =>
  match op.step x.os with
  | none => (.panic "kernel panic", x)
  | some r => (.ok (), ⟨r.1, x.log ++ r.2⟩)

end RvOp
end OpenV.Sched
