import OpenV.Sched.Irq

/- Reading, writing and closing channels and pipes on several harts
   (`ipc/channel.rs`, `ipc/handle.rs`, `syscall/fs.rs`, `syscall/ipc.rs`).

   These calls are not one step each: they are cut where they touch what they share,
   the queue under its lock, the slot of the waiting reader, the flags of a closed
   end, and the run queue. A hart that is in a call has a list of what is left of it
   to do (`Micro`), and the harts take turns. The last look of a reader and its going
   to sleep are one step; in between nothing else could tell.

   A call that goes to `schedule` never comes back, so that the references it holds
   are never given up: `Endpoint.lost` counts them, next to the handles that
   processes and messages have.

   Of a message its sizes are kept. A queue that is dropped with handles in it closes
   them as `close` does. -/
namespace OpenV.Sched

open Function

/-- What can be read from. -/
inductive Stream where
  | channel (ep : Nat)
  | pipe (i : Nat)
  deriving DecidableEq, Repr

/-- A call that reads. -/
inductive Reader where
  /-- `sys_read` of a channel -/
  | read (ep len : Nat)
  | channelRead (ep maxBytes maxHandles : Nat)
  /-- `sys_read` of a pipe -/
  | readPipe (i len : Nat)
  deriving DecidableEq, Repr

def Reader.stream : Reader → Stream
  | read ep _ => .channel ep
  | channelRead ep _ _ => .channel ep
  | readPipe i _ => .pipe i

def Reader.call : Reader → Call
  | read ep _ => .readChannel ep
  | channelRead ep _ _ => .channelRead ep
  | readPipe i _ => .readPipe i

def Call.stream : Call → Option Stream
  | .readChannel ep => some (.channel ep)
  | .channelRead ep => some (.channel ep)
  | .readPipe i => some (.pipe i)
  | _ => none

/-- One thing that a call does. -/
inductive Micro where
  /-- look for a message or bytes -/
  | recv (r : Reader)
  /-- `is_peer_closed`, before the reader registers -/
  | checkClosed (ep maxBytes maxHandles : Nat)
  /-- `waiter.store(pid)` -/
  | register (r : Reader)
  /-- look again -/
  | recvAgain (r : Reader)
  | checkAgain (ep maxBytes maxHandles : Nat)
  /-- `waiter.store(0)` -/
  | retract (r : Reader)
  /-- put a message into the queue of the peer -/
  | send (ep : Nat) (msg : Nat × Nat)
  | sendFast (ep : Nat) (msg : Nat × Nat)
  /-- `waiter.swap(0)` -/
  | swap (o : Stream)
  | swapFast (ep peer : Nat)
  | enqueue (pid : Pid)
  /-- `sys_channel_write` gives the hart away for the reader -/
  | handOff (pid : Pid) (ep : Nat)
  /-- a reference goes out of scope -/
  | release (ep : Nat)
  /-- `Drop for ChannelEndpoint` -/
  | dropEndpoint (ep : Nat)
  | closeHandle (ep : Nat)
  | writePipe (i : Nat) (bytes : List (BitVec 8))
  | pushPipe (i : Nat) (bytes : List (BitVec 8))
  /-- `Drop for PipeWriteHalf` -/
  | closeWriter (i : Nat)
  /-- the count of write halves goes down -/
  | dropWriter (i : Nat)
  | closeReader (i : Nat)
  deriving DecidableEq, Repr

/-- The call that reads of which this is a part. -/
def Micro.reader : Micro → Option Reader
  | recv r => some r
  | checkClosed ep maxBytes maxHandles => some (.channelRead ep maxBytes maxHandles)
  | register r => some r
  | recvAgain r => some r
  | checkAgain ep maxBytes maxHandles => some (.channelRead ep maxBytes maxHandles)
  | retract r => some r
  | _ => none

/-- The call has a reference to the endpoint until it has done this. -/
def Micro.holds (ep : Nat) : Micro → Bool
  | swapFast own peer => own == ep || peer == ep
  | sendFast own _ => own == ep
  | handOff _ own => own == ep
  | release own => own == ep
  | i => i.reader.elim false fun r => r.stream == .channel ep

structure Io where
  os : Os
  harts : Nat
  /-- what is left of the call on each hart; nothing if the hart is in user mode -/
  todo : Nat → List Micro := fun _ => []

def EPIPE : Nat := usizeMax - 31

namespace Os

def setEndpoint (ep : Nat) (f : Endpoint → Endpoint) (s : Os) : Os :=
  { s with endpoints := update s.endpoints ep (f (s.endpoints ep)) }

def setPipe (i : Nat) (f : Pipe → Pipe) (s : Os) : Os :=
  { s with pipes := update s.pipes i (f (s.pipes i)) }

/-- The slot of the waiting reader. -/
def waiter (s : Os) : Stream → Pid
  | .channel ep => (s.endpoints ep).waiter
  | .pipe i => (s.pipes i).waiter

def setWaiter (o : Stream) (pid : Pid) (s : Os) : Os :=
  match o with
  | .channel ep => s.setEndpoint ep fun e => { e with waiter := pid }
  | .pipe i => s.setPipe i fun e => { e with waiter := pid }

/-- There is something to read. -/
def hasData (s : Os) : Stream → Bool
  | .channel ep => !(s.endpoints ep).queue.isEmpty
  | .pipe i => !(s.pipes i).data.isEmpty

/-- The last writer or the peer has gone. -/
def gone (s : Os) : Stream → Bool
  | .channel ep => (s.endpoints (s.endpoints ep).peer).handles == 0
  | .pipe i => (s.pipes i).writers == 0

/-- The process sleeps in a call that reads `o`: it is live, turned back to its call, and neither waits to run nor
runs. -/
def Blocked (s : Os) (p : Pid) (o : Stream) : Prop :=
  (∃ a pc call, s.proc p = some a ∧ ProcState.isZombie a.state = false ∧ a.again = some (pc, call) ∧
    call.stream = some o) ∧ p ∉ s.queued ∧ ∀ h, s.current h ≠ p

/-- The reader goes to sleep on hart `h`. -/
def sleepIn (h : Nat) (r : Reader) (s : Os) : Os :=
  (match r.stream with
    | .channel ep => s.setEndpoint ep fun e => { e with lost := e.lost + 1 }
    | .pipe i => s.setPipe i fun e => { e with locked := false }).sleepAgain h (s.current h)

end Os

/-- What a call that reads has left to do when it has its result. -/
def Reader.finish : Reader → List Micro
  | read ep _ => [.release ep]
  | channelRead ep _ _ => [.release ep]
  | readPipe _ _ => []

namespace Io

/-- There is a reference to the endpoint. -/
def alive (ep : Nat) (s : Io) : Bool :=
  decide (0 < (s.os.endpoints ep).handles) || decide (0 < (s.os.endpoints ep).lost) ||
    (List.range s.harts).any fun h => (s.todo h).any fun i => i.holds ep

/-- What is to be done when a reference is gone. -/
def unref (ep : Nat) (s : Io) : List Micro := if s.alive ep then [] else [.dropEndpoint ep]

/-- `try_recv` and `try_recv_constrained`: with a message, the system after it; none for an empty queue. -/
def tryRecv (me : Pid) (r : Reader) (s : Os) : Option Os :=
  match r with
  | .read ep len =>
    match (s.endpoints ep).queue with
    | [] => none
    | m :: q => some ((s.setEndpoint ep fun e => { e with queue := q }).setA0 me (min len m.1))
  | .channelRead ep maxBytes maxHandles =>
    match (s.endpoints ep).queue with
    | [] => none
    | m :: q =>
      if maxBytes < m.1 ∨ maxHandles < m.2 then some (s.setA0 me EINVAL)
      else some ((s.setEndpoint ep fun e => { e with queue := q }).setA0 me (min maxBytes m.1))
  | .readPipe i len =>
    match (s.pipes i).data with
    | [] => none
    | data => some ((s.setPipe i fun e => { e with data := data.drop len }).setA0 me (min len data.length))

/-- One thing is done on hart `h`: the system after it and what it adds to the list; `s` has it out of the list. -/
def exec (h : Nat) (i : Micro) (s : Io) : Os × List Micro :=
  let me := s.os.current h
  match i with
  | .recv (.readPipe i len) =>
    -- the lock is taken here and kept until the reader sleeps or returns
    if (s.os.pipes i).locked then (s.os, [.recv (.readPipe i len)])
    else match tryRecv me (.readPipe i len) s.os with
      | some os => (os, [])
      | none =>
        if (s.os.pipes i).writers = 0 then (s.os.setA0 me 0, [])
        else (s.os.setPipe i fun e => { e with locked := true }, [.register (.readPipe i len)])
  | .recv r =>
    match tryRecv me r s.os with
    | some os => (os, r.finish)
    | none => match r with
      | .channelRead ep b n => (s.os, [.checkClosed ep b n])
      | _ => (s.os, [.register r])
  | .checkClosed ep b n =>
    if (s.os.endpoints ep).peerClosed then (s.os.setA0 me 0, [.release ep])
    else (s.os, [.register (.channelRead ep b n)])
  | .register r => (s.os.setWaiter r.stream me, [.recvAgain r])
  | .recvAgain (.readPipe i len) =>
    if (s.os.pipes i).writers = 0 then (s.os.setA0 me 0, [.retract (.readPipe i len)])
    else (s.os.sleepIn h (.readPipe i len), [])
  | .recvAgain r =>
    match tryRecv me r s.os with
    | some os => (os, [.retract r])
    | none => match r with
      | .channelRead ep b n => (s.os, [.checkAgain ep b n])
      | _ => (s.os.sleepIn h r, [])
  | .checkAgain ep b n =>
    if (s.os.endpoints ep).peerClosed then (s.os.setA0 me 0, [.retract (.channelRead ep b n)])
    else (s.os.sleepIn h (.channelRead ep b n), [])
  | .retract r =>
    let os := s.os.setWaiter r.stream 0
    match r.stream with
    | .channel _ => (os, r.finish)
    | .pipe i => (os.setPipe i fun e => { e with locked := false }, [])
  | .send ep msg =>
    let peer := (s.os.endpoints ep).peer
    if s.alive peer then
      ((s.os.setEndpoint peer fun e => { e with queue := e.queue ++ [msg] }).setA0 me msg.1,
        [.swap (.channel peer), .release peer])
    else (s.os.setA0 me usizeMax, [])
  | .sendFast ep msg =>
    let peer := (s.os.endpoints ep).peer
    if s.alive peer then
      ((s.os.setEndpoint peer fun e => { e with queue := e.queue ++ [msg] }).setA0 me 0, [.swapFast ep peer])
    else (s.os.setA0 me usizeMax, [.release ep])
  | .swap o => (s.os.setWaiter o 0, if 0 < s.os.waiter o then [.enqueue (s.os.waiter o)] else [])
  | .swapFast ep peer =>
    (s.os.setWaiter (.channel peer) 0,
      [.release peer, if 0 < s.os.waiter (.channel peer) then .handOff (s.os.waiter (.channel peer)) ep else .release ep])
  | .enqueue pid => (s.os.enqueue pid, [])
  | .handOff pid ep =>
    ((((s.os.setEndpoint ep fun e => { e with lost := e.lost + 1 }).enqueue me).enqueue pid).leave h, [])
  | .release ep => (s.os, s.unref ep)
  | .dropEndpoint ep =>
    let peer := (s.os.endpoints ep).peer
    if s.alive peer then
      (s.os.setEndpoint peer fun e => { e with peerClosed := true }, [.swap (.channel peer), .release peer])
    else (s.os, [])
  | .closeHandle ep =>
    let os := s.os.setEndpoint ep fun e => { e with handles := e.handles - 1 }
    (os.setA0 me 0, unref ep { s with os := os })
  | .writePipe i bytes =>
    if (s.os.pipes i).readers = 0 then
      (s.os.setProc me fun p => { p with
        a0 := EPIPE
        pendingSignals := if p.blockedSignals.getLsbD 13 then p.pendingSignals else p.pendingSignals ||| 1#32 <<< 13 }, [])
    else (s.os, [.pushPipe i bytes])
  | .pushPipe i bytes =>
    if (s.os.pipes i).locked then (s.os, [.pushPipe i bytes])
    else ((s.os.setPipe i fun e => { e with data := e.data ++ bytes }).setA0 me bytes.length, [.swap (.pipe i)])
  | .closeWriter i =>
    (s.os, if (s.os.pipes i).writers = 1 then [.swap (.pipe i), .dropWriter i] else [.dropWriter i])
  | .dropWriter i => ((s.os.setPipe i fun e => { e with writers := e.writers - 1 }).setA0 me 0, [])
  | .closeReader i => ((s.os.setPipe i fun e => { e with readers := e.readers - 1 }).setA0 me 0, [])

end Io

/-- The calls, for a caller who has the handle. -/
inductive IoCall where
  | read (r : Reader)
  | write (ep : Nat) (msg : Nat × Nat)
  | channelWrite (ep : Nat) (msg : Nat × Nat)
  | writePipe (i : Nat) (bytes : List (BitVec 8))
  | close (ep : Nat)
  | closeWriter (i : Nat)
  | closeReader (i : Nat)
  deriving DecidableEq, Repr

namespace IoCall

def call : IoCall → Call
  | read r => r.call
  | _ => .other

def micro : IoCall → Micro
  | read r => .recv r
  | write ep msg => .send ep msg
  | channelWrite ep msg => .sendFast ep msg
  | writePipe i bytes => .writePipe i bytes
  | close ep => .closeHandle ep
  | closeWriter i => .closeWriter i
  | closeReader i => .closeReader i

/-- There is a handle that the call can be made with. -/
def opened (s : Os) : IoCall → Bool
  | read (.read ep _) => 0 < (s.endpoints ep).handles
  | read (.channelRead ep _ _) => 0 < (s.endpoints ep).handles
  | read (.readPipe i _) => 0 < (s.pipes i).readers
  | write ep _ => 0 < (s.endpoints ep).handles
  | channelWrite ep _ => 0 < (s.endpoints ep).handles
  | writePipe i _ => 0 < (s.pipes i).writers
  | close ep => 0 < (s.endpoints ep).handles
  | closeWriter i => 0 < (s.pipes i).writers
  | closeReader i => 0 < (s.pipes i).readers

end IoCall

inductive IoOp where
  | dispatch (h : Nat)
  | preempt (h pc : Nat)
  | call (h pc : Nat) (c : IoCall)
  | step (h : Nat)
  deriving DecidableEq, Repr

namespace IoOp

def stepIo (op : IoOp) (s : Io) : Io :=
  match op with
  | dispatch h => if s.todo h = [] ∧ h < s.harts then { s with os := s.os.dispatch h } else s
  | preempt h pc => if s.todo h = [] then { s with os := s.os.preempt h pc } else s
  | call h pc c =>
    if s.todo h = [] ∧ h < s.harts ∧ c.opened s.os = true then
      (s.os.caller h pc c.call).elim s fun me =>
        { s with os := s.os.setProc me (Proc.enter pc c.call), todo := update s.todo h [c.micro] }
    else s
  | step h =>
    match s.todo h with
    | [] => s
    | i :: rest =>
      let r := Io.exec h i { s with todo := update s.todo h rest }
      { s with os := r.1, todo := update s.todo h (r.2 ++ rest) }

def run (op : IoOp) : Cmd Io Unit := fun s => (.ok (), op.stepIo s)

end IoOp

/-! ## What can go wrong -/

/-- Nobody sleeps on the other end of a channel. -/
def Os.NobodyAcross (ep : Nat) (s : Os) : Prop := ∀ p, ¬s.Blocked p (.channel (s.endpoints ep).peer)

/-- What a part of a call needs: `sys_read` does not go to sleep on a channel whose peer has gone; a reference is not
lost on an endpoint without handles, nor the last handle closed of one with lost references, while someone sleeps on
the other end or is about to; the last writer of a pipe does not go while a reader that has registered sleeps. -/
def Micro.Safe (i : Micro) (s : Os) : Prop :=
  match i with
  | recvAgain (.read ep _) => (s.endpoints ep).queue = [] → (s.endpoints (s.endpoints ep).peer).handles ≠ 0 ∧
      ((s.endpoints ep).handles = 0 → s.NobodyAcross ep)
  | checkAgain ep _ _ => (s.endpoints ep).peerClosed = false →
      ((s.endpoints (s.endpoints ep).peer).handles = 0 → (s.endpoints (s.endpoints ep).peer).lost = 0) ∧
      ((s.endpoints ep).handles = 0 → s.NobodyAcross ep)
  | handOff _ ep => (s.endpoints ep).handles = 0 → s.NobodyAcross ep
  | closeHandle ep => (s.endpoints ep).handles = 1 → 0 < (s.endpoints ep).lost → s.NobodyAcross ep
  | dropWriter i => (s.pipes i).writers = 1 → ∀ p, s.Blocked p (.pipe i) → (s.pipes i).waiter ≠ p
  | _ => True

/-- What a step needs besides: no hart takes up a process that runs on another one, and a process reads only from a
stream that nobody else reads from or sleeps on. -/
def IoOp.Safe (op : IoOp) (s : Io) : Prop :=
  match op with
  | dispatch h => s.os.current h = 0 → ∀ x, nextEntry s.os.runQueue = some x → ∀ h', s.os.current h' ≠ x.2
  | preempt _ _ => True
  | call _ _ (.read r) => (∀ p, ¬s.os.Blocked p r.stream) ∧
      ∀ h i r', i ∈ s.todo h → i.reader = some r' → r'.stream ≠ r.stream
  | call .. => True
  | step h => ∀ i rest, s.todo h = i :: rest → i.Safe s.os

/-- What is still to be done somewhere. -/
def Io.Pending (i : Micro) (s : Io) : Prop := ∃ h, i ∈ s.todo h

/-- The wakeup of `p` is on its way: someone is about to put it into the run queue, or to take the slot of `o`, or to
find out that the last reference to the peer is gone. -/
def Io.WakeUp (p : Pid) (o : Stream) (s : Io) : Prop :=
  ∃ i, s.Pending i ∧ (i = .enqueue p ∨ (∃ ep, i = .handOff p ep) ∨ i = .swap o ∨
    ∃ ep, o = .channel ep ∧ ((∃ own, i = .swapFast own ep) ∨ i = .dropEndpoint (s.os.endpoints ep).peer ∨
      i.holds (s.os.endpoints ep).peer = true))

/-- Nobody sleeps on a stream that has something for it, unless its wakeup is on the way. -/
def Io.NoLostWakeup (s : Io) : Prop :=
  ∀ p o, s.os.Blocked p o → s.os.hasData o = true ∨ s.os.gone o = true → s.WakeUp p o

end OpenV.Sched
