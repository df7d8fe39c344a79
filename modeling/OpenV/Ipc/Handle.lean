import OpenV.Mm.Vmm

/- Handle tables (`src/ipc/handle.rs`): the map from 16-bit handle ids to kernel
   objects, with a generation number against stale handles. Kernel objects that
   are shared through an `Arc` are named by a number; who holds the `Arc` is what
   the handle tables say. -/
namespace OpenV

inductive KernelObject where
  | vmo (id : Nat)
  | channel (id : Nat)
  | tty (id : Nat)
  | pipeRead (id : Nat)
  | pipeWrite (id : Nat)
  | vfsFile (id : Nat)
  | port (id : Nat)
  | job (id : Nat)
  | epollInstance (id : Nat)
  | resource (pa paSize : Nat) (irq : Option Nat)
  deriving DecidableEq, Repr

namespace Rights

def read : Nat := 1 <<< 0
def write : Nat := 1 <<< 1
def duplicate : Nat := 1 <<< 2
def transfer : Nat := 1 <<< 3
def all : Nat := read ||| write ||| duplicate ||| transfer

/-- `rights.contains(required)`. -/
def contains (rights required : Nat) : Bool := rights &&& required == required

end Rights

structure HandleEntry where
  object : KernelObject
  rights : Nat
  generation : Nat
  deriving DecidableEq, Repr

def encodeHandle (id generation : Nat) : Nat := (generation <<< 16) ||| id

def decodeHandle (handle : Nat) : Nat × Nat := (handle &&& 0xFFFF, handle >>> 16)

/-- `map` lists the entries by id, `cloexec` the handles to close on exec. -/
structure HandleTable where
  map : List (Nat × HandleEntry) := []
  cloexec : List Nat := []
  deriving DecidableEq, Repr

namespace HandleTable

def lookup (t : HandleTable) (id : Nat) : Option HandleEntry := (t.map.find? (·.1 == id)).map (·.2)

def insertId (t : HandleTable) (id : Nat) (entry : HandleEntry) : HandleTable :=
  { t with map := (id, entry) :: t.map.filter (·.1 != id) }

/-- The first free id from `id` on, among the next `n`. -/
def lowestFreeFrom (t : HandleTable) : Nat → Nat → Option Nat
  | 0, _ => none
  | n + 1, id => if (t.lookup id).isSome then lowestFreeFrom t n (id + 1) else some id

/-- `lowest_free`, `none` standing for its panic. -/
def lowestFree (t : HandleTable) : Option Nat := t.lowestFreeFrom 65536 0

/-- `insert_with_rights`: the handle and the new table. -/
def insertWithRights (t : HandleTable) (obj : KernelObject) (rights : Nat) : Option (Nat × HandleTable) :=
  t.lowestFree.map fun id =>
    let generation := match t.lookup id with
      | some entry => (entry.generation + 1) % 65536
      | none => 1
    (encodeHandle id generation, t.insertId id ⟨obj, rights, generation⟩)

/-- `insert`: all rights. -/
def insert (t : HandleTable) (obj : KernelObject) : Option (Nat × HandleTable) := t.insertWithRights obj Rights.all

/-- `insert_at`: all rights, at the id and generation of a handle. -/
def insertAt (t : HandleTable) (handle : Nat) (obj : KernelObject) : HandleTable :=
  let (id, generation) := decodeHandle handle
  t.insertId id ⟨obj, Rights.all, generation⟩

/-- `insert_entry`: the generation of the handle is not looked at. -/
def insertEntry (t : HandleTable) (handle : Nat) (entry : HandleEntry) : HandleTable :=
  t.insertId (decodeHandle handle).1 entry

/-- `get`. -/
def get (t : HandleTable) (handle : Nat) : Option KernelObject :=
  let (id, generation) := decodeHandle handle
  ((t.lookup id).filter (·.generation == generation)).map (·.object)

/-- `get_entry`. -/
def getEntry (t : HandleTable) (handle : Nat) : Option HandleEntry :=
  let (id, generation) := decodeHandle handle
  (t.lookup id).filter (·.generation == generation)

/-- What stands between a handle and its use: it does not exist, or lacks a right. -/
inductive Denied where
  | badHandle
  | noRights
  deriving DecidableEq, Repr

/-- `get_with_rights`. -/
def getWithRights (t : HandleTable) (handle required : Nat) : Except Denied KernelObject :=
  match t.getEntry handle with
  | none => .error .badHandle
  | some entry => if Rights.contains entry.rights required then .ok entry.object else .error .noRights

/-- `remove`: the object and the table without it. -/
def remove (t : HandleTable) (handle : Nat) : Option KernelObject × HandleTable :=
  let t' := { t with cloexec := t.cloexec.filter (· != handle) }
  let (id, generation) := decodeHandle handle
  match t.lookup id with
  | some entry =>
    if entry.generation = generation then
      (some entry.object, { t' with map := t.map.filter (·.1 != id) })
    else (none, t')
  | none => (none, t')

/-- `remove_entry`: the entry and the table without it. -/
def removeEntry (t : HandleTable) (handle : Nat) : Option HandleEntry × HandleTable :=
  let t' := { t with cloexec := t.cloexec.filter (· != handle) }
  let (id, generation) := decodeHandle handle
  match t.lookup id with
  | some entry =>
    if entry.generation = generation then (some entry, { t' with map := t.map.filter (·.1 != id) })
    else (none, t')
  | none => (none, t')

/-- `dup`: `none` for a handle that does not exist; the inner `none` is a full table. The copy has
all rights, whatever those of the original. -/
def dup (t : HandleTable) (src : Nat) : Option (Option (Nat × HandleTable)) :=
  (t.getEntry src).map fun entry => t.insert entry.object

/-- `dup2`: `none` if `src` is not found. -/
def dup2 (t : HandleTable) (src dst : Nat) : Option HandleTable :=
  (t.getEntry src).map fun entry =>
    let (id, generation) := decodeHandle dst
    { t.insertId id { entry with generation := generation } with cloexec := t.cloexec.filter (· != dst) }

/-- One round of the loop of `copy_msg_to_user`: the value handed out carries the next generation, the
entry goes in with the one it had. -/
def mint (t : HandleTable) (entry : HandleEntry) : Option (Nat × HandleTable) :=
  t.lowestFree.map fun newId =>
    let newH := encodeHandle newId ((entry.generation + 1) % 65536)
    (newH, t.insertEntry newH entry)

/-- `close_all`. -/
def closeAll (_ : HandleTable) : HandleTable := {}

/-- `close_on_exec`. -/
def closeOnExec (t : HandleTable) : HandleTable :=
  let closes (x : Nat × HandleEntry) : Bool :=
    t.cloexec.any fun h => decodeHandle h == (x.1, x.2.generation)
  { map := t.map.filter fun x => !closes x }

/-- The table holds a handle to `obj`. -/
def holds (t : HandleTable) (obj : KernelObject) : Bool := t.map.any (·.2.object == obj)

end HandleTable
end OpenV
