import OpenV.Lib.Run
import OpenV.Vfs.Paths

/- The file server (`user/vfs-server/src/main.rs`): the tree that each mount namespace
   keeps in memory, the table of open files and the requests of the clients.

   Paths that begin with `/mnt` go to the block file system, of which the server only
   sees the operations in `BlockFs`. What the kernel and the other servers answer while a
   request is served (`Env`), and the bytes that are copied from the client (`Text`), come
   with the request. A namespace that was never named is a new one. The metadata of the
   nodes (mode, owner, times) is not part of the model: no request here reads it. -/
namespace OpenV.FileServer

open Function
open OpenV.Vfs (parentAndName fromUtf8 nameBytes addUsize)

/-! ## Paths -/

/-- One round of the loop of `normalize_path`. -/
def keepComponent (comps : List (List Char)) (comp : List Char) : List (List Char) :=
  if comp = [] ∨ comp = ['.'] then comps
  else if comp = ['.', '.'] then comps.dropLast
  else comps ++ [comp]

/-- The components that `normalize_path` is left with. -/
def normalComponents (path : String) : List (List Char) := (path.toList.splitOn '/').foldl keepComponent []

/-- `normalize_path`. -/
def normalizePath (path : String) : String :=
  let comps := normalComponents path
  String.ofList ((if path.toList.head? = some '/' ∨ comps = [] then ['/'] else []) ++ ['/'].intercalate comps)

/-- `strip_prefix("/mnt")`, where an empty rest stands for the root. -/
def stripMnt (path : String) : Option String :=
  if "/mnt".toList.isPrefixOf path.toList then
    some (if path.toList.drop 4 = [] then "/" else String.ofList (path.toList.drop 4))
  else none

/-- `path.starts_with("/proc/")`. -/
def inProc (path : String) : Bool := "/proc/".toList.isPrefixOf path.toList

/-- `is_virtual_path`. -/
def isVirtualPath (path : String) : Bool :=
  path = "/dev" || path = "/dev/null" || path = "/dev/zero" || path = "/dev/tty" || path = "/proc" || inProc path

/-- Digits, as a number. -/
def parseDigits (cs : List Char) : Option Nat :=
  if cs ≠ [] ∧ cs.all Char.isDigit then some (cs.foldl (fun n c => n * 10 + (c.toNat - '0'.toNat)) 0) else none

/-- `parse::<i32>().is_ok()`. -/
def isI32 : List Char → Bool
  | '-' :: cs => (parseDigits cs).any (· ≤ 2 ^ 31)
  | '+' :: cs => (parseDigits cs).any (· < 2 ^ 31)
  | cs => (parseDigits cs).any (· < 2 ^ 31)

/-- `split_once('/')`, with an empty second part if there is no slash. -/
def splitOnce (cs : List Char) : List Char × List Char := (cs.takeWhile (· ≠ '/'), (cs.dropWhile (· ≠ '/')).tail)

/-! ## The tree in memory -/

/-- `FsNode`. -/
inductive FsNode where
  | tarFile (tarOffset size : Nat)
  | memFile (data : List (BitVec 8))
  | dir (children : List String)
  | symlink (target : String)
  deriving DecidableEq

/-- The entries, if it is a directory. -/
def FsNode.children : FsNode → Option (List String)
  | .dir children => some children
  | _ => none

/-- `Vfs`. -/
structure Vfs where
  nodes : String → Option FsNode

namespace Vfs

/-- `Vfs::new`. -/
def new : Vfs := ⟨update (fun _ => none) "/" (some (.dir []))⟩

def insert (v : Vfs) (path : String) (node : FsNode) : Vfs := ⟨update v.nodes path (some node)⟩

def remove (v : Vfs) (path : String) : Vfs := ⟨update v.nodes path none⟩

/-- The children of a directory. -/
def children (v : Vfs) (path : String) : Option (List String) := (v.nodes path).bind FsNode.children

/-- `children.push(name)` in a directory. -/
def push (v : Vfs) (dir name : String) : Vfs :=
  match v.children dir with
  | some children => v.insert dir (.dir (children ++ [name]))
  | none => v

/-- `children.retain(|c| c != &name)` in a directory. -/
def drop (v : Vfs) (dir name : String) : Vfs :=
  match v.children dir with
  | some children => v.insert dir (.dir (children.filter (· ≠ name)))
  | none => v

/-- The directory that has the entry for a path, and the name of the entry. -/
def entry (v : Vfs) (path : String) : Option (String × String) :=
  match parentAndName path with
  | some (parent, name) => if (v.children parent).isSome then some (parent, name) else none
  | none => none

/-- `create` below the test for `/mnt`. The node that is there is replaced. -/
def createNode (v : Vfs) (path : String) : Option Vfs :=
  match v.entry path with
  | some (parent, name) =>
    let v' := if (v.nodes path).isSome then v else v.push parent name
    some (v'.insert path (.memFile []))
  | none => none

/-- A new node, with an entry in its directory. -/
def addNode (v : Vfs) (path : String) (node : FsNode) : Option Vfs :=
  match v.entry path with
  | some (parent, name) => some ((v.push parent name).insert path node)
  | none => none

/-- `unlink` below the test for `/mnt`. -/
def unlinkNode (v : Vfs) (path : String) : Option Vfs :=
  if (v.nodes path).isSome then
    match v.entry path with
    | some (parent, name) => some ((v.drop parent name).remove path)
    | none => none
  else none

/-- `link`. -/
def link (v : Vfs) (oldPath newPath : String) : Option Vfs :=
  match v.nodes (normalizePath oldPath) with
  | none => none
  | some (.dir _) => none
  | some node =>
    if (v.nodes (normalizePath newPath)).isSome then none else v.addNode (normalizePath newPath) node

/-- `OP_RENAME` of two paths outside `/mnt`. The paths are not normalized, and the new one may exist or have no
directory. -/
def rename (v : Vfs) (old new : String) : Option Vfs :=
  match v.nodes old with
  | none => none
  | some node =>
    let v := v.remove old
    let v := match parentAndName old with
      | some (parent, name) => v.drop parent name
      | none => v
    let v := match parentAndName new with
      | some (parent, name) => v.push parent name
      | none => v
    some (v.insert new node)

/-- `readlink`. -/
def readlink (v : Vfs) (path : String) : Option String :=
  match v.nodes (normalizePath path) with
  | some (.symlink target) => some target
  | _ => none

/-- The end of `stat`. -/
def statNode (v : Vfs) (path : String) : Option (Bool × Nat) :=
  match v.nodes path with
  | some (.tarFile _ size) => some (false, size)
  | some (.memFile data) => some (false, data.length)
  | some (.dir _) => some (true, 0)
  | some (.symlink target) => some (false, (nameBytes target).length)
  | none => none

end Vfs

/-! ## The block file system -/

/-- What the server asks of the file system behind `/mnt`. Every operation begins with `get_blockfs`, and fails if
there is none. -/
structure BlockFs (β : Type) where
  /-- `lookup_path(p).is_some()`, if there is a block file system -/
  find : String → Cmd β (Option Bool)
  mkdir : String → Cmd β Bool
  create : String → Cmd β Bool
  unlink : String → Cmd β Bool
  rename : String → String → Cmd β Bool
  symlink : String → String → Cmd β Bool
  link : String → String → Cmd β Bool
  readdir : String → Cmd β (Option (List String))
  stat : String → Cmd β (Option (Bool × Nat))
  readlink : String → Cmd β (Option (List (BitVec 8)))
  /-- `OP_FTRUNCATE`; the length is not handed on -/
  truncate : String → Cmd β Bool

/-! ## The server -/

/-- `OpenFile`. -/
structure OpenFile where
  path : String
  offset : BitVec 64 := 0#64
  nsId : BitVec 32

/-- `OpenTable`. -/
structure OpenTable where
  files : BitVec 32 → Option OpenFile := fun _ => none
  nextFd : BitVec 32 := 1#32

/-- `OpenTable::open`. -/
def OpenTable.openFile (t : OpenTable) (path : String) (nsId : BitVec 32) : OpenTable where
  files := update t.files t.nextFd (some { path := path, nsId := nsId })
  nextFd := t.nextFd + 1#32

/-- The state of the server. -/
structure Server (β : Type) where
  namespaces : BitVec 32 → Vfs := fun _ => Vfs.new
  openTable : OpenTable := {}
  blk : β

/-- Bytes copied from the client, unless the copy fails. -/
abbrev Text := Option (List (BitVec 8))

/-- The string in a buffer of the client. -/
def Text.read (t : Text) : Option String := t.bind fromUtf8

/-- The same with the limit that some requests have for its length. -/
def Text.readLimited (t : Text) : Option String :=
  match t with
  | none => none
  | some bytes => if bytes.length = 0 ∨ 1024 < bytes.length then none else fromUtf8 bytes

/-- What the kernel and other servers say while a request is served. -/
structure Env where
  /-- the answer of procfs-server to a `stat`, if it is registered -/
  procStat : Option (String → Option (Bool × Nat)) := none
  /-- what procfs-server lists, if it is registered -/
  procList : Option (Option (List (BitVec 8))) := none
  devStat : Option (String → Option (Bool × Nat)) := none
  devList : Option (Option (List (BitVec 8))) := none
  /-- syscall 110 -/
  pids : List String := []
  /-- whether so many bytes can be copied to the client's buffer -/
  copyOut : Nat → Bool := fun _ => true

inductive Reply where
  | err
  | ok
  | fd (fd : BitVec 32)
  | stat (isDir : Bool) (size : Nat)
  | bytes (data : List (BitVec 8))
  deriving DecidableEq

/-- The requests that name files. -/
inductive Req where
  | opOpen (nsId : BitVec 32) (path : Text)
  | opCreate (nsId : BitVec 32) (path : Text)
  | opMkdir (nsId : BitVec 32) (path : Text)
  | opUnlink (nsId : BitVec 32) (path : Text)
  | opStat (nsId : BitVec 32) (path : Text)
  | opGetdents (path : Text) (bufLen : Nat)
  | opRename (old new : Text)
  | opReadlink (path : Text) (bufLen : Nat)
  | opSymlink (link target : Text)
  | opLink (old new : Text)

namespace Server
variable {β : Type}

/-- `ns_vfs`. -/
def nsVfs (nsId : BitVec 32) : Cmd (Server β) Vfs := fun s => (.ok (s.namespaces nsId), s)

def setNs (nsId : BitVec 32) (v : Vfs) : Cmd (Server β) Unit :=
  Cmd.modify fun s => { s with namespaces := update s.namespaces nsId v }

/-- Run a command of the block file system. -/
def onBlk {α : Type} (c : Cmd β α) : Cmd (Server β) α := Cmd.zoom (·.blk) (fun b s => { s with blk := b }) c

/-- `Vfs::exists`. -/
def pathExists (F : BlockFs β) (v : Vfs) (path : String) : Cmd (Server β) Bool :=
  if isVirtualPath path then pure true
  else
    match stripMnt path with
    | some p => do
      match ← onBlk (F.find p) with
      | some found => pure found
      | none => pure (v.nodes (normalizePath path)).isSome
    | none => pure (v.nodes (normalizePath path)).isSome

/-- An operation that has changed the tree, or failed. -/
def commit (nsId : BitVec 32) : Option Vfs → Cmd (Server β) Bool
  | none => pure false
  | some v => do
    setNs nsId v
    pure true

/-- A new node at a normal path, if the path does not exist. -/
def addUnlessExists (F : BlockFs β) (nsId : BitVec 32) (path : String) (node : FsNode) : Cmd (Server β) Bool := do
  let v ← nsVfs nsId
  if ← pathExists F v path then pure false
  else commit nsId (v.addNode path node)

/-- `Vfs::mkdir`. -/
def mkdir (F : BlockFs β) (nsId : BitVec 32) (path : String) : Cmd (Server β) Bool :=
  match stripMnt path with
  | some p => onBlk (F.mkdir p)
  | none => addUnlessExists F nsId (normalizePath path) (.dir [])

/-- `Vfs::create`. -/
def create (F : BlockFs β) (nsId : BitVec 32) (path : String) : Cmd (Server β) Bool :=
  match stripMnt path with
  | some p => onBlk (F.create p)
  | none => do
    let v ← nsVfs nsId
    commit nsId (v.createNode (normalizePath path))

/-- `Vfs::unlink`. -/
def unlink (F : BlockFs β) (nsId : BitVec 32) (path : String) : Cmd (Server β) Bool :=
  match stripMnt path with
  | some p => onBlk (F.unlink p)
  | none => do
    let v ← nsVfs nsId
    commit nsId (v.unlinkNode (normalizePath path))

/-- `OP_SYMLINK`, with `Vfs::symlink`. -/
def symlink (F : BlockFs β) (link target : String) : Cmd (Server β) Bool :=
  match stripMnt link with
  | some p => onBlk (F.symlink p target)
  | none => addUnlessExists F 1 (normalizePath link) (.symlink target)

/-- A request with two paths, which must be on the same side. -/
def onBoth (old new : String) (blk : String → String → Cmd β Bool) (mem : Vfs → String → String → Option Vfs) :
    Cmd (Server β) Bool :=
  match stripMnt old, stripMnt new with
  | some p, some q => onBlk (blk p q)
  | none, none => do
    let v ← nsVfs 1
    commit 1 (mem v old new)
  | _, _ => pure false

/-- `OP_LINK`, with `Vfs::link`. -/
def link (F : BlockFs β) (old new : String) : Cmd (Server β) Bool := onBoth old new F.link Vfs.link

/-- `OP_RENAME`. -/
def rename (F : BlockFs β) (old new : String) : Cmd (Server β) Bool := onBoth old new F.rename Vfs.rename

/-- What `Vfs::stat` answers for the paths of `/dev` and `/proc`. -/
def virtualStat (path : String) : Option (Option (Bool × Nat)) :=
  if path = "/dev" ∨ path = "/proc" then some (some (true, 0))
  else if path = "/dev/null" ∨ path = "/dev/zero" ∨ path = "/dev/tty" then some (some (false, 0))
  else if inProc path then
    let (pidPart, sub) := splitOnce (path.toList.drop 6)
    if isI32 pidPart ∧ sub = [] then some (some (true, 0))
    else if isI32 pidPart ∧ String.ofList sub = "status" then some (some (false, 256))
    else some none
  else none

/-- `Vfs::stat`. -/
def stat (F : BlockFs β) (nsId : BitVec 32) (path : String) : Cmd (Server β) (Option (Bool × Nat)) :=
  match virtualStat path with
  | some r => pure r
  | none =>
    match stripMnt path with
    | some p => onBlk (F.stat p)
    | none => do
      let v ← nsVfs nsId
      pure (v.statNode (normalizePath path))

/-- What `Vfs::readdir` answers for the paths of `/dev` and `/proc`. -/
def virtualReaddir (env : Env) (path : String) : Option (List String) :=
  if path = "/dev" then some ["null", "zero", "tty"]
  else if path = "/proc" then some env.pids
  else if inProc path ∧ isI32 (path.toList.drop 6) then some ["status"]
  else none

/-- `Vfs::readdir`. -/
def readdir (F : BlockFs β) (env : Env) (nsId : BitVec 32) (path : String) : Cmd (Server β) (Option (List String)) :=
  match virtualReaddir env path with
  | some names => pure (some names)
  | none =>
    match stripMnt path with
    | some p => onBlk (F.readdir p)
    | none => do
      let v ← nsVfs nsId
      pure (v.children (normalizePath path))

/-- The loop of `OP_GETDENTS` that fills the buffer. -/
def packNames (bufLen : Nat) : List (BitVec 8) → List String → List (BitVec 8)
  | out, [] => out
  | out, name :: rest =>
    if bufLen < out.length + (nameBytes name).length + 1 then out
    else packNames bufLen (out ++ nameBytes name ++ [0#8]) rest

/-- A reply with bytes for the client's buffer. -/
def replyBytes (env : Env) (data : List (BitVec 8)) : Reply :=
  if env.copyOut data.length then .bytes data else .err

def replyBool (ok : Bool) : Reply := if ok then .ok else .err

/-- A successful open gets a new descriptor. -/
def replyOpen (nsId : BitVec 32) (path : String) (ok : Bool) : Cmd (Server β) Reply :=
  if ok then do
    let s ← Cmd.get
    Cmd.modify fun s => { s with openTable := s.openTable.openFile path nsId }
    pure (.fd s.openTable.nextFd)
  else pure .err

/-- The answer of another server to a `stat`, if there is one for the path. -/
def forwardStat (env : Env) (path : String) : Option (Option (Bool × Nat)) :=
  if (path = "/proc" ∨ inProc path) ∧ env.procStat.isSome then env.procStat.map (· path)
  else if (path = "/dev" ∨ "/dev/".toList.isPrefixOf path.toList) ∧ env.devStat.isSome then env.devStat.map (· path)
  else none

/-- The listing of another server, if there is one for the path. -/
def forwardList (env : Env) (path : String) : Option (Option (List (BitVec 8))) :=
  if (path = "/proc" ∨ inProc path) ∧ env.procList.isSome then env.procList
  else if path = "/dev" ∧ env.devList.isSome then env.devList
  else none

def replyStat : Option (Bool × Nat) → Reply
  | some (isDir, size) => .stat isDir size
  | none => .err

/-- A request whose path could not be read is refused. -/
def withPath (path : Option String) (act : String → Cmd (Server β) Reply) : Cmd (Server β) Reply :=
  match path with
  | some path => act path
  | none => pure .err

/-- `OP_GETDENTS`. -/
def getdents (F : BlockFs β) (env : Env) (bufLen : Nat) (path : String) : Cmd (Server β) Reply :=
  match forwardList env path with
  | some (some data) => pure (.bytes data)
  | some none => pure .err
  | none => do
    match ← readdir F env 1 path with
    | some names => pure (replyBytes env (packNames bufLen [] names))
    | none => pure .err

/-- `OP_STAT`. -/
def opStat (F : BlockFs β) (env : Env) (nsId : BitVec 32) (path : String) : Cmd (Server β) Reply :=
  match forwardStat env path with
  | some r => pure (replyStat r)
  | none => do return replyStat (← stat F nsId path)

/-- `OP_READLINK`. -/
def readlink (F : BlockFs β) (env : Env) (bufLen : Nat) (path : String) : Cmd (Server β) Reply :=
  match stripMnt path with
  | some p => do
    match ← onBlk (F.readlink p) with
    | some target => pure (replyBytes env (target.take bufLen))
    | none => pure .err
  | none => do
    let v ← nsVfs 1
    match v.readlink path with
    | some target => pure (replyBytes env ((nameBytes target).take bufLen))
    | none => pure .err

/-- `dispatch`. -/
def dispatch (F : BlockFs β) (env : Env) : Req → Cmd (Server β) Reply
  | .opOpen nsId path => withPath path.readLimited fun path => do
    let v ← nsVfs nsId
    replyOpen nsId path (← pathExists F v path)
  | .opCreate nsId path => withPath path.read fun path => do replyOpen nsId path (← create F nsId path)
  | .opMkdir nsId path => withPath path.read fun path => do return replyBool (← mkdir F nsId path)
  | .opUnlink nsId path => withPath path.read fun path => do return replyBool (← unlink F nsId path)
  | .opStat nsId path => withPath path.read (opStat F env nsId)
  | .opGetdents path bufLen => withPath path.readLimited (getdents F env bufLen)
  | .opRename old new => withPath old.read fun old => withPath new.read fun new => do
    return replyBool (← rename F old new)
  | .opReadlink path bufLen =>
    if bufLen = 0 then pure .err else withPath path.readLimited (readlink F env bufLen)
  | .opSymlink link target => withPath link.readLimited fun link => withPath target.readLimited fun target => do
    return replyBool (← symlink F link target)
  | .opLink old new => withPath old.readLimited fun old => withPath new.readLimited fun new => do
    return replyBool (← Server.link F old new)

end Server
end OpenV.FileServer
