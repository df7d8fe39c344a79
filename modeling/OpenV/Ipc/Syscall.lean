import OpenV.Ipc.Channel
import OpenV.Kernel.State

/- The syscalls that make pipes and channels and move handles through channels
   (`src/syscall/ipc.rs`). The state is what they touch: the handle table of each
   process and the channel endpoints. Objects that lose their last handle are not
   followed further. -/
namespace OpenV

open Function

/-- User memory as the caller sees it. -/
abbrev UserMem := Nat → BitVec 8

def UserMem.bytes (mem : UserMem) (ptr len : Nat) : List (BitVec 8) := (List.range len).map fun i => mem (ptr + i)

/-- The `u32` at `ptr`, little-endian. -/
def UserMem.u32 (mem : UserMem) (ptr : Nat) : Nat :=
  (mem ptr).toNat + (mem (ptr + 1)).toNat * 2 ^ 8 + (mem (ptr + 2)).toNat * 2 ^ 16 + (mem (ptr + 3)).toNat * 2 ^ 24

def UserMem.u32s (mem : UserMem) (ptr len : Nat) : List Nat := (List.range len).map fun i => mem.u32 (ptr + 4 * i)

structure Ipc where
  /-- the handle table of each process -/
  fds : Nat → Option HandleTable
  endpoints : Nat → Endpoint
  peer : Nat → Nat
  /-- some handle, message or call refers to the endpoint -/
  alive : Nat → Bool
  /-- numbers for new objects -/
  nextId : Nat

namespace Ipc

def setFds (k : Ipc) (pid : Nat) (t : HandleTable) : Ipc := { k with fds := update k.fds pid (some t) }

def setEndpoint (k : Ipc) (id : Nat) (ep : Endpoint) : Ipc := { k with endpoints := update k.endpoints id ep }

/-- `ChannelEndpoint::create_pair`, under the numbers `nextId` and `nextId + 1`. -/
def createPair (k : Ipc) : Ipc :=
  let id := k.nextId
  { k with
    endpoints := update (update k.endpoints id {}) (id + 1) {}
    peer := update (update k.peer id (id + 1)) (id + 1) id
    alive := update (update k.alive id true) (id + 1) true
    nextId := id + 2 }

end Ipc

def tableFull : String := "handle table full (65536 handles exhausted)"

/-- `fds.insert(a); fds.insert(b)`. -/
def insertTwo (t : HandleTable) (a b : KernelObject) : Option (Nat × Nat × HandleTable) := do
  let (h1, t1) ← t.insert a
  let (h2, t2) ← t1.insert b
  pure (h1, h2, t2)

/-- What a call that makes two handles returns: the error code, or the handles it writes to user memory. -/
structure Made where
  a0 : Nat
  handles : List Nat := []
  deriving DecidableEq, Repr

/-- `sys_pipe`. The handles are in the table before the pointer is checked. -/
def sysPipe (pid ptr : Nat) : Cmd Ipc Made := do
  let k ← Cmd.get
  Cmd.modify fun k => { k with nextId := k.nextId + 1 }
  match k.fds pid with
  | none => pure ⟨ESRCH, []⟩
  | some t =>
    match insertTwo t (.pipeRead k.nextId) (.pipeWrite k.nextId) with
    | none => Cmd.die tableFull
    | some (hr, hw, t') => do
      Cmd.modify fun k => k.setFds pid t'
      if isUserPointerValid 8 ptr 1 then pure ⟨0, [hr, hw]⟩ else pure ⟨usizeMax, []⟩

/-- `sys_channel_create`. -/
def sysChannelCreate (pid ptr : Nat) : Cmd Ipc Made := do
  let k ← Cmd.get
  Cmd.modify Ipc.createPair
  match k.fds pid with
  | none => pure ⟨ESRCH, []⟩
  | some t =>
    match insertTwo t (.channel k.nextId) (.channel (k.nextId + 1)) with
    | none => Cmd.die tableFull
    | some (h1, h2, t') =>
      if isUserPointerValid 8 ptr 1 then do
        Cmd.modify fun k => k.setFds pid t'
        pure ⟨0, [h1, h2]⟩
      else do
        Cmd.modify fun k => k.setFds pid ((t'.remove h1).2.remove h2).2
        pure ⟨EFAULT, []⟩

/-- The arguments of `sys_channel_write` and `sys_channel_read`. -/
structure ChannelArgs where
  fd : Nat
  bufPtr : Nat
  bufLen : Nat
  handlesPtr : Nat
  handlesLen : Nat

/-- The handles a write is to transfer. -/
def ChannelArgs.handleIds (a : ChannelArgs) (mem : UserMem) : List Nat := mem.u32s a.handlesPtr a.handlesLen

/-- Every handle exists and may be transferred; the code of the first that does not. -/
def checkHandles (t : HandleTable) : List Nat → Except Nat Unit
  | [] => .ok ()
  | h :: hs =>
    match t.getEntry h with
    | some entry => if Rights.contains entry.rights Rights.transfer then checkHandles t hs else .error EACCES
    | none => .error EBADF

/-- Some handle of the list stands earlier in it as well. -/
def hasRepeat : List Nat → Bool
  | [] => false
  | h :: hs => hs.contains h || hasRepeat hs

/-- `remove_entry` for each handle. -/
def takeEntries : HandleTable → List Nat → List HandleEntry × HandleTable
  | t, [] => ([], t)
  | t, h :: hs =>
    let (entry, t1) := t.removeEntry h
    let (entries, t2) := takeEntries t1 hs
    (entry.toList ++ entries, t2)

/-- `sys_channel_write` up to its first change: the caller's table and the endpoint written to. -/
def channelWriteCheck (pid : Nat) (mem : UserMem) (a : ChannelArgs) (k : Ipc) : Except Nat (HandleTable × Nat) :=
  if 8 < a.handlesLen then .error EINVAL
  else if 0 < a.bufLen ∧ isUserPointerValid 1 a.bufPtr a.bufLen = false then .error EFAULT
  else if 0 < a.handlesLen ∧ isUserPointerValid 4 a.handlesPtr a.handlesLen = false then .error EFAULT
  else
    match k.fds pid with
    | none => .error ESRCH
    | some t =>
      match t.getWithRights (a.fd % 2 ^ 32) Rights.write with
      | .ok (.channel ep) =>
        if (a.handleIds mem).contains (a.fd % 2 ^ 32) then .error EINVAL
        else if hasRepeat (a.handleIds mem) then .error EINVAL
        else
          match checkHandles t (a.handleIds mem) with
          | .error e => .error e
          | .ok () => .ok (t, ep)
      | _ => .error EACCES

/-- The message a write sends. -/
def ChannelArgs.message (a : ChannelArgs) (mem : UserMem) (t : HandleTable) : Message where
  bytes := mem.bytes a.bufPtr a.bufLen
  handles := (takeEntries t (a.handleIds mem)).1

/-- `write_fast`: whether the peer was there. Its waiter is scheduled by the caller. -/
def writeFast (ep : Nat) (msg : Message) : Cmd Ipc Bool := do
  let k ← Cmd.get
  if k.alive (k.peer ep) then do
    Cmd.modify fun k => k.setEndpoint (k.peer ep) ((k.endpoints (k.peer ep)).push msg).takeWaiter.2
    pure true
  else pure false

/-- `sys_channel_write`. The handles leave the table before the message is delivered. -/
def sysChannelWrite (pid : Nat) (mem : UserMem) (a : ChannelArgs) : Cmd Ipc Nat := do
  let k ← Cmd.get
  match channelWriteCheck pid mem a k with
  | .error e => pure e
  | .ok (t, ep) => do
    Cmd.modify fun k => k.setFds pid (takeEntries t (a.handleIds mem)).2
    if ← writeFast ep (a.message mem t) then pure 0 else pure usizeMax

/-- The loop of `copy_msg_to_user`. -/
def mintAll : HandleTable → List HandleEntry → Option (List Nat × HandleTable)
  | t, [] => some ([], t)
  | t, entry :: entries => do
    let (h, t1) ← t.mint entry
    let (hs, t2) ← mintAll t1 entries
    pure (h :: hs, t2)

/-- The outcome of `sys_channel_read`: the two result registers and what is written to user memory, or the caller
is blocked and will make the call again. -/
inductive ReadResult where
  | done (a0 a1 : Nat) (bytes : List (BitVec 8)) (handles : List Nat)
  | blocked
  deriving DecidableEq, Repr

/-- `copy_msg_to_user`. -/
def copyMsgToUser (pid : Nat) (t : HandleTable) (msg : Message) (a : ChannelArgs) : Cmd Ipc ReadResult := do
  let copyBytes := min a.bufLen msg.bytes.length
  let copyHandles := min a.handlesLen msg.handles.length
  match mintAll t (msg.handles.take copyHandles) with
  | none => Cmd.die tableFull
  | some (minted, t') => do
    Cmd.modify fun k => k.setFds pid t'
    pure (.done copyBytes copyHandles (msg.bytes.take copyBytes) minted)

/-- `sys_channel_read`. -/
def sysChannelRead (pid : Nat) (a : ChannelArgs) : Cmd Ipc ReadResult := do
  if 0 < a.bufLen ∧ isUserPointerValid 1 a.bufPtr a.bufLen = false then pure (.done EFAULT 0 [] [])
  else if 0 < a.handlesLen ∧ isUserPointerValid 4 a.handlesPtr a.handlesLen = false then pure (.done EFAULT 0 [] [])
  else
    let k ← Cmd.get
    match k.fds pid with
    | none => pure (.done ESRCH 0 [] [])
    | some t =>
      match t.getWithRights (a.fd % 2 ^ 32) Rights.read with
      | .ok (.channel ep) =>
        match (k.endpoints ep).tryRecvConstrained a.bufLen a.handlesLen with
        | (.ok (some msg), ep') => do
          Cmd.modify fun k => k.setEndpoint ep ep'
          copyMsgToUser pid t msg a
        | (.ok none, _) =>
          if (k.endpoints ep).peerClosed then pure (.done 0 0 [] [])
          else do
            -- with the caller alone, the second attempt finds what the first one did
            Cmd.modify fun k => k.setEndpoint ep { k.endpoints ep with waiter := pid }
            pure .blocked
        | (.error _, _) => pure (.done EINVAL 0 [] [])
      | _ => pure (.done EACCES 0 [] [])

end OpenV
