import OpenV.Ipc.Handle

/- Channel endpoints (`src/ipc/channel.rs`): the critical sections of their
   methods as functions on the endpoint's state. Ports, epoll instances and
   direct signal waiters, which are only told that something changed, are left
   out. -/
namespace OpenV

structure Message where
  bytes : List (BitVec 8)
  handles : List HandleEntry
  deriving DecidableEq, Repr

/-- One side of a channel. `waker` says whether an async reader is registered, `waiter` is the pid of a
blocked reader, 0 for none. -/
structure Endpoint where
  queue : List Message := []
  waker : Bool := false
  peerClosed : Bool := false
  waiter : Nat := 0
  deriving DecidableEq, Repr

inductive Poll where
  | ready (r : Except String Message)
  | pending

namespace Endpoint

/-- `write` and `write_fast` on the state of the peer. -/
def push (ep : Endpoint) (msg : Message) : Endpoint := { ep with queue := ep.queue ++ [msg], waker := false }

/-- `waiter.swap(0)`. -/
def takeWaiter (ep : Endpoint) : Nat × Endpoint := (ep.waiter, { ep with waiter := 0 })

/-- `try_recv`. -/
def tryRecv (ep : Endpoint) : Option Message × Endpoint :=
  match ep.queue with
  | [] => (none, ep)
  | msg :: rest => (some msg, { ep with queue := rest })

/-- `try_recv_constrained`. -/
def tryRecvConstrained (ep : Endpoint) (maxBytes maxHandles : Nat) : Except (Nat × Nat) (Option Message) × Endpoint :=
  match ep.queue with
  | [] => (.ok none, ep)
  | msg :: rest =>
    if maxBytes < msg.bytes.length ∨ maxHandles < msg.handles.length then
      (.error (msg.bytes.length, msg.handles.length), ep)
    else (.ok (some msg), { ep with queue := rest })

/-- `poll_recv`. -/
def pollRecv (ep : Endpoint) : Poll × Endpoint :=
  match ep.queue with
  | msg :: rest => (.ready (.ok msg), { ep with queue := rest })
  | [] => if ep.peerClosed then (.ready (.error "Peer closed"), ep) else (.pending, { ep with waker := true })

/-- What the drop of an endpoint does to the state of its peer. -/
def close (ep : Endpoint) : Endpoint := { ep with peerClosed := true, waker := false }

end Endpoint
end OpenV
