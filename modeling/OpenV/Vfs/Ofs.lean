import OpenV.Lib.Prog
import OpenV.Vfs.Format

/- The block file system (`user/vfs-server/src/blockfs.rs`): inode cache, block and
   inode allocation, the block map of a file, files and directories, `mkfs` and
   mounting.

   The methods of `OfsState` are programs over its lowest level (`read_blk`,
   `write_blk`, `read_inode`, `cache.invalidate`, `commit_txn`, the size of the
   volume), which `handle` runs on the state. Indexing a bitmap past its block
   panics, as does a directory entry whose name leaves its block. -/
namespace OpenV.Vfs

open Function

/-! ## The inode cache -/

def inodeCacheSize : Nat := 32

/-- `InodeCache`. -/
structure InodeCache where
  entries : Fin 32 → Nat × Option RawInode := fun _ => (0, none)
  generation : BitVec 64 := 1#64

namespace InodeCache

/-- The first entry with a key. -/
def first (c : InodeCache) (ino : Nat) : Option (Fin 32) := (List.finRange 32).find? fun j => (c.entries j).1 = ino

/-- `get`: the value of the first entry with the key, which may have been cleared. -/
def get (c : InodeCache) (ino : Nat) : Option RawInode := (c.first ino).bind fun j => (c.entries j).2

/-- The entry that `insert` uses next. -/
def nextSlot (c : InodeCache) : Fin 32 := ⟨c.generation.toNat % inodeCacheSize, Nat.mod_lt _ (by decide)⟩

def insert (c : InodeCache) (ino : Nat) (inode : RawInode) : InodeCache where
  entries := update c.entries c.nextSlot (ino, some inode)
  generation := c.generation + 1#64

/-- `invalidate`: clears the first entry with the key. -/
def invalidate (c : InodeCache) (ino : Nat) : InodeCache :=
  match c.first ino with
  | none => c
  | some j => { c with entries := update c.entries j ((c.entries j).1, none) }

end InodeCache

/-! ## The lowest level -/

structure OfsState extends Ofs where
  totalBlocks : Nat
  cache : InodeCache := {}

/-- `BTreeMap::insert`. -/
def insertPending (blk : Nat) (buf : Block) : List (Nat × Block) → List (Nat × Block)
  | [] => [(blk, buf)]
  | (k, v) :: rest =>
    if blk < k then (blk, buf) :: (k, v) :: rest
    else if blk = k then (blk, buf) :: rest
    else (k, v) :: insertPending blk buf rest

/-- The table block of an inode. -/
def tableBlk (ino : Nat) : Nat := inodeTableStart + ino / inodesPerBlock

/-- The offset of an inode in its table block. -/
def tableOff (ino : Nat) : Nat := ino % inodesPerBlock * inodeSize

namespace OfsState

/-- Run a command of the journal. -/
def onJournal {α : Type} (c : Cmd Ofs α) : Cmd OfsState α := Cmd.zoom (·.toOfs) (fun o s => { s with toOfs := o }) c

/-- `write_blk`. -/
def writeBlk (blk : Nat) (buf : Block) : Cmd OfsState Bool := do
  Cmd.modify fun s => { s with pending := insertPending blk buf s.pending }
  pure true

/-- `read_blk`. -/
def readBlk (blk : Nat) : Cmd OfsState (Option Block) := do
  let s ← Cmd.get
  match s.pending.lookup blk with
  | some data => pure (some data)
  | none => onJournal (Ofs.readBlock blk)

/-- `read_inode`. -/
def readInode (ino : Nat) : Cmd OfsState (Option RawInode) := do
  if maxInodes ≤ ino then pure none
  else
    let s ← Cmd.get
    match s.cache.get ino with
    | some cached => pure (some cached)
    | none =>
      match ← readBlk (tableBlk ino) with
      | none => pure none
      | some buf => do
        let inode := rawInodeRead buf (tableOff ino)
        Cmd.modify fun s => { s with cache := s.cache.insert ino inode }
        pure (some inode)

end OfsState

/-- What the methods of `OfsState` are made of. -/
inductive Request where
  | readBlk (blk : Nat)
  | writeBlk (blk : Nat) (buf : Block)
  | readInode (ino : Nat)
  | invalidate (ino : Nat)
  | commitTxn
  | totalBlocks
  | panic (msg : String)

def Request.Answer : Request → Type
  | readBlk _ => Option Block
  | writeBlk _ _ => Bool
  | readInode _ => Option RawInode
  | invalidate _ => Unit
  | commitTxn => Bool
  | totalBlocks => Nat
  | panic _ => Empty

abbrev FsProg := Prog Request Request.Answer

/-- Each request on the state. -/
def handle : (q : Request) → Cmd OfsState q.Answer
  | .readBlk blk => OfsState.readBlk blk
  | .writeBlk blk buf => OfsState.writeBlk blk buf
  | .readInode ino => OfsState.readInode ino
  | .invalidate ino => Cmd.modify fun s => { s with cache := s.cache.invalidate ino }
  | .commitTxn => OfsState.onJournal Ofs.commitTxn
  | .totalBlocks => do
    let s ← Cmd.get
    pure s.totalBlocks
  | .panic msg => Cmd.die msg

def readBlk (blk : Nat) : FsProg (Option Block) := Prog.request (Request.readBlk blk)
def writeBlk (blk : Nat) (buf : Block) : FsProg Bool := Prog.request (Request.writeBlk blk buf)
def readInode (ino : Nat) : FsProg (Option RawInode) := Prog.request (Request.readInode ino)
def invalidate (ino : Nat) : FsProg Unit := Prog.request (Request.invalidate ino)
def commitTxn : FsProg Bool := Prog.request Request.commitTxn
def totalBlocks : FsProg Nat := Prog.request Request.totalBlocks
def panic {α : Type} (msg : String) : FsProg α := Prog.ask (Request.panic msg) fun r => nomatch r

def fsync : FsProg Bool := commitTxn

/-- `write_inode`. -/
def writeInode (ino : Nat) (inode : RawInode) : FsProg Bool := do
  if maxInodes ≤ ino then pure false
  else
    invalidate ino
    match ← readBlk (tableBlk ino) with
    | none => pure false
    | some buf => writeBlk (tableBlk ino) (rawInodeWrite buf (tableOff ino) inode)

/-! ## Allocation -/

def bitmapSet (bitmapBlk bit : Nat) (value : Bool) : FsProg Unit := do
  match ← readBlk bitmapBlk with
  | none => pure ()
  | some buf =>
    if bitmapBits ≤ bit then panic "index out of bounds"
    else
      let _ ← writeBlk bitmapBlk (putBit buf bit value)
      pure ()

/-- The loop of `bitmap_alloc`, over `n` bits from `i` on. -/
def bitmapScan (bitmapBlk : Nat) (buf : Block) : Nat → Nat → FsProg (Option Nat)
  | 0, _ => pure none
  | n + 1, i =>
    if bitmapBits ≤ i then panic "index out of bounds"
    else if bitSet buf i = false then do
      let _ ← writeBlk bitmapBlk (putBit buf i true)
      pure (some i)
    else bitmapScan bitmapBlk buf n (i + 1)

def bitmapAlloc (bitmapBlk start limit : Nat) : FsProg (Option Nat) := do
  match ← readBlk bitmapBlk with
  | none => pure none
  | some buf => bitmapScan bitmapBlk buf (limit - start) start

def allocBlock : FsProg (Option Nat) := do bitmapAlloc blockBitmapBlk dataStart (← totalBlocks)

def freeBlock (blk : Nat) : FsProg Unit :=
  if dataStart ≤ blk then bitmapSet blockBitmapBlk blk false else pure ()

/-- `free_indirect_blocks`. -/
def freeIndirectBlocks : Nat → Nat → FsProg Unit
  | 0, blk => if blk = 0 then pure () else freeBlock blk
  | depth + 1, blk =>
    if blk = 0 then pure ()
    else do
      match ← readBlk blk with
      | none => pure ()
      | some ib =>
        Prog.forEach (List.range nptrs) fun i =>
          Prog.onlyIf ((u32Le ib (i * 4)).toNat ≠ 0) (freeIndirectBlocks depth (u32Le ib (i * 4)).toNat)
        freeBlock blk

def allocInode : FsProg (Option Nat) := bitmapAlloc inodeBitmapBlk 1 maxInodes

def freeInode (ino : Nat) : FsProg Unit := do
  invalidate ino
  bitmapSet inodeBitmapBlk ino false

def createInode (itype : BitVec 8) : FsProg (Option Nat) := do
  match ← allocInode with
  | none => pure none
  | some ino => do
    let _ ← writeInode ino { itype := itype, nlink := 1#32 }
    pure (some ino)

/-! ## The block map of a file -/

/-- `alloc_block()?`, with zeros written to the block. -/
def allocZeroed : FsProg (Option Nat) := do
  match ← allocBlock with
  | none => pure none
  | some blk => do
    let _ ← writeBlk blk zeroBlock
    pure (some blk)

/-- The pointers an inode holds itself. -/
inductive Root where
  | direct (i : Fin 12)
  | indirect
  | doubleIndirect
  deriving DecidableEq

namespace RawInode

def root (n : RawInode) : Root → BitVec 32
  | .direct i => n.direct i
  | .indirect => n.indirect
  | .doubleIndirect => n.doubleIndirect

def setRoot (n : RawInode) (blk : BitVec 32) : Root → RawInode
  | .direct i => { n with direct := update n.direct i blk }
  | .indirect => { n with indirect := blk }
  | .doubleIndirect => { n with doubleIndirect := blk }

end RawInode

/-- The block at a pointer of the inode, allocated if it is missing and `alloc` is set. -/
def rootBlock (inode : RawInode) (ino : Nat) (r : Root) (alloc : Bool) : FsProg (Option Nat × RawInode) := do
  if inode.root r ≠ 0#32 then pure (some (inode.root r).toNat, inode)
  else if alloc = false then pure (none, inode)
  else
    match ← allocZeroed with
    | none => pure (none, inode)
    | some blk => do
      let inode := inode.setRoot (BitVec.ofNat 32 blk) r
      let inode := { inode with usedBlocks := inode.usedBlocks + 1#32 }
      let _ ← writeInode ino inode
      pure (some blk, inode)

/-- The block at a pointer of an indirect block, allocated if it is missing and `alloc` is set. -/
def entryBlock (inode : RawInode) (ino table idx : Nat) (alloc : Bool) : FsProg (Option Nat × RawInode) := do
  match ← readBlk table with
  | none => pure (none, inode)
  | some buf =>
    if u32Le buf (idx * 4) ≠ 0#32 then pure (some (u32Le buf (idx * 4)).toNat, inode)
    else if alloc = false then pure (none, inode)
    else
      match ← allocZeroed with
      | none => pure (none, inode)
      | some blk => do
        let _ ← writeBlk table (putU32 buf (idx * 4) (BitVec.ofNat 32 blk))
        let inode := { inode with usedBlocks := inode.usedBlocks + 1#32 }
        let _ ← writeInode ino inode
        pure (some blk, inode)

/-- `get_file_block`, with the inode as it is left. -/
def getFileBlock (inode : RawInode) (ino idx : Nat) (alloc : Bool) : FsProg (Option Nat × RawInode) := do
  if h : idx < 12 then rootBlock inode ino (.direct ⟨idx, h⟩) alloc
  else if idx - 12 < nptrs then
    match ← rootBlock inode ino .indirect alloc with
    | (none, inode) => pure (none, inode)
    | (some ib, inode) => entryBlock inode ino ib (idx - 12) alloc
  else
    let outer := (idx - 12 - nptrs) / nptrs
    let inner := (idx - 12 - nptrs) % nptrs
    if nptrs ≤ outer then pure (none, inode)
    else
      match ← rootBlock inode ino .doubleIndirect alloc with
      | (none, inode) => pure (none, inode)
      | (some dib, inode) =>
        match ← entryBlock inode ino dib outer alloc with
        | (none, inode) => pure (none, inode)
        | (some ib, inode) => entryBlock inode ino ib inner alloc

/-! ## Files -/

inductive FsError where
  | badInode
  | notFile
  | noSpace
  | missingBlock
  | blockRead
  | blockWrite
  deriving DecidableEq, Repr

/-- A slice of bytes. -/
structure Bytes where
  len : Nat
  get : Nat → BitVec 8

/-- `ITYPE_FILE` or `ITYPE_SYMLINK`. -/
def RawInode.isFile (n : RawInode) : Prop := n.itype = itypeFile ∨ n.itype = itypeSymlink

instance (n : RawInode) : Decidable n.isFile := inferInstanceAs (Decidable (_ ∨ _))

/-- `usize` addition. -/
def addUsize (a b : Nat) : Nat := (a + b) % 2 ^ 64

/-- `(pos / BLOCK_SIZE) as u32`. -/
def blockIdx (pos : Nat) : Nat := pos / blockSize % 2 ^ 32

/-- The loop of `file_read` with `done` bytes read, for at most `fuel` rounds. -/
def fileReadLoop (ino offset toRead : Nat) : Nat → Nat → RawInode → (Nat → BitVec 8) →
    FsProg (Except FsError (Nat → BitVec 8))
  | 0, _, _, out => pure (.ok out)
  | fuel + 1, done, inode, out => do
    if done < toRead then
      let pos := addUsize offset done
      let blockOff := pos % blockSize
      let chunk := min (toRead - done) (blockSize - blockOff)
      match ← getFileBlock inode ino (blockIdx pos) false with
      | (none, _) => pure (.error .missingBlock)
      | (some blk, inode) =>
        match ← readBlk blk with
        | none => pure (.error .blockRead)
        | some buf =>
          fileReadLoop ino offset toRead fuel (done + chunk) inode (copyInto out done chunk fun i => buf (blockOff + i))
    else pure (.ok out)

/-- `file_read`; the bytes read are at the front of the buffer. -/
def fileRead (ino offset : Nat) (buf : Bytes) : FsProg (Except FsError Bytes) := do
  match ← readInode ino with
  | none => pure (.error .badInode)
  | some inode =>
    if ¬inode.isFile then pure (.error .notFile)
    else if inode.size.toNat ≤ offset then pure (.ok { len := 0, get := buf.get })
    else
      let toRead := min (inode.size.toNat - offset) buf.len
      match ← fileReadLoop ino offset toRead toRead 0 inode buf.get with
      | .error e => pure (.error e)
      | .ok out => pure (.ok { len := toRead, get := out })

/-- The loop of `file_write` with `done` bytes written, for at most `fuel` rounds. -/
def fileWriteLoop (ino offset : Nat) (data : Bytes) : Nat → Nat → RawInode → FsProg (Except FsError RawInode)
  | 0, _, inode => pure (.ok inode)
  | fuel + 1, done, inode => do
    if done < data.len then
      let pos := addUsize offset done
      let blockOff := pos % blockSize
      let chunk := min (data.len - done) (blockSize - blockOff)
      match ← getFileBlock inode ino (blockIdx pos) true with
      | (none, _) => pure (.error .noSpace)
      | (some blk, inode) =>
        let old ← if blockOff ≠ 0 ∨ chunk < blockSize then readBlk blk else pure (some zeroBlock)
        match old with
        | none => pure (.error .blockRead)
        | some buf =>
          if ← writeBlk blk (copyInto buf blockOff chunk fun i => data.get (done + i)) then
            fileWriteLoop ino offset data fuel (done + chunk) inode
          else pure (.error .blockWrite)
    else pure (.ok inode)

/-- `file_write`. -/
def fileWrite (ino offset : Nat) (data : Bytes) : FsProg (Except FsError Nat) := do
  match ← readInode ino with
  | none => pure (.error .badInode)
  | some inode =>
    if ¬inode.isFile then pure (.error .notFile)
    else
      let fin := addUsize offset data.len
      match ← fileWriteLoop ino offset data data.len 0 inode with
      | .error e => pure (.error e)
      | .ok inode => do
        Prog.onlyIf (inode.size.toNat < fin) do
          let _ ← writeInode ino { inode with size := BitVec.ofNat 32 fin }
        let _ ← commitTxn
        pure (.ok data.len)

/-- `file_truncate`. -/
def fileTruncate (ino : Nat) : FsProg Unit := do
  match ← readInode ino with
  | none => pure ()
  | some inode => do
    Prog.forEach (List.finRange 12) fun i => Prog.onlyIf (inode.direct i ≠ 0#32) (freeBlock (inode.direct i).toNat)
    Prog.onlyIf (inode.indirect ≠ 0#32) (freeIndirectBlocks 1 inode.indirect.toNat)
    Prog.onlyIf (inode.doubleIndirect ≠ 0#32) (freeIndirectBlocks 2 inode.doubleIndirect.toNat)
    let _ ← writeInode ino { inode with
      direct := fun _ => 0#32, indirect := 0#32, doubleIndirect := 0#32, size := 0#32, usedBlocks := 0#32 }
    let _ ← commitTxn
    pure ()

/-! ## Directories -/

/-- `div_ceil`. -/
def divCeil (a b : Nat) : Nat := (a + b - 1) / b

/-- The slots a directory of this size has. -/
def RawInode.totalEntries (n : RawInode) : Nat := divCeil n.size.toNat direntrySize

/-- `dirent_name`. -/
def direntName (buf : Block) (off len : Nat) : FsProg (List (BitVec 8)) :=
  if blockSize < off + 8 + len then panic "range end index out of range" else pure (slice buf (off + 8) len)

/-- `dirent_name_eq`. -/
def direntNameEq (buf : Block) (off len : Nat) (name : List (BitVec 8)) : FsProg Bool := do
  if len ≠ name.length then pure false
  else return decide ((← direntName buf off len) = name)

/-- The slots of a directory block in which `name` is looked for; the value of the loop is `Some` where the source
returns. -/
def scanBlock {β : Type} (buf : Block) (total first : Nat) (name : List (BitVec 8))
    (found : Nat → Dirent → FsProg (Option β)) : FsProg (Option β) :=
  Prog.findSome (List.range direntriesPerBlock) fun slot => do
    if total ≤ first + slot then pure none
    else
      let off := slot * direntrySize
      let de := direntRead buf off
      if de.nameLen = 0 then pure none
      else if ← direntNameEq buf off de.nameLen name then found off de
      else pure none

/-- `dir_lookup_inode`; `seen` is the number of the slot in the directory. -/
def dirLookupInode (dirIno : Nat) (name : String) : FsProg (Option (Nat × BitVec 8)) := do
  match ← readInode dirIno with
  | none => pure none
  | some inode =>
    if inode.itype ≠ itypeDir then pure none
    else if 55 < (nameBytes name).length then pure none
    else do
      let r ← Prog.findSome (List.range (divCeil inode.size.toNat blockSize)) fun block => do
        match ← getFileBlock inode dirIno block false with
        | (none, _) => pure (some none)
        | (some blk, _) =>
          match ← readBlk blk with
          | none => pure (some none)
          | some buf =>
            scanBlock buf inode.totalEntries (block * direntriesPerBlock) (nameBytes name) fun _ de =>
              pure (some (some (de.inode, de.etype)))
      pure r.join

/-- `saturating_add(1)`. -/
def satInc (n : BitVec 32) : BitVec 32 := if n = BitVec.allOnes 32 then n else n + 1#32

/-- `saturating_sub(1)`. -/
def satDec (n : BitVec 32) : BitVec 32 := if n = 0#32 then n else n - 1#32

/-- `if etype == ITYPE_DIR_ENTRY`: the link count of the directory changes. -/
def bumpParent (dirIno : Nat) (etype : BitVec 8) (bump : BitVec 32 → BitVec 32) : FsProg Unit := do
  Prog.onlyIf (etype = itypeDir) do
    match ← readInode dirIno with
    | none => pure ()
    | some parent => do
      let _ ← writeInode dirIno { parent with nlink := bump parent.nlink }

/-- The end of `dir_add_entry`, once the entry is in block `blk`: the directory covers it. -/
def coverEntry (dirIno : Nat) (inode : RawInode) (size : Nat) (etype : BitVec 8) : FsProg Bool := do
  Prog.onlyIf (inode.size.toNat < size) do
    let _ ← writeInode dirIno { inode with size := BitVec.ofNat 32 size }
  bumpParent dirIno etype satInc
  commitTxn

/-- `dir_add_entry`. A block that cannot be read is tried again for ever. -/
def dirAddEntry (dirIno : Nat) (name : String) (childIno : Nat) (etype : BitVec 8) : FsProg Bool := do
  match ← readInode dirIno with
  | none => pure false
  | some inode =>
    if inode.itype ≠ itypeDir then pure false
    else if 55 < (nameBytes name).length then pure false
    else do
      let total := inode.totalEntries
      let reused ← Prog.findSome (List.range (divCeil total direntriesPerBlock)) fun block => do
        let coverage := block * direntriesPerBlock
        match ← getFileBlock inode dirIno block false with
        | (none, _) => pure none
        | (some blk, _) =>
          match ← readBlk blk with
          | none => panic "no progress"
          | some buf =>
            Prog.findSome (List.range direntriesPerBlock) fun slot => do
              if total ≤ coverage + slot then pure none
              else if (direntRead buf (slot * direntrySize)).nameLen = 0 then do
                let _ ← writeBlk blk (direntWrite buf (slot * direntrySize) childIno (nameBytes name) etype)
                let ok ← coverEntry dirIno inode ((coverage + slot + 1) * direntrySize) etype
                pure (some ok)
              else pure none
      match reused with
      | some ok => pure ok
      | none => do
        let next := divCeil inode.size.toNat blockSize
        match ← getFileBlock inode dirIno next true with
        | (none, _) => pure false
        | (some blk, inode) =>
          if blk = 0 then pure false
          else do
            let _ ← writeBlk blk (direntWrite zeroBlock 0 childIno (nameBytes name) etype)
            coverEntry dirIno inode ((next * direntriesPerBlock + 1) * direntrySize) etype

/-- `dir_link_entry`. -/
def dirLinkEntry (dirIno : Nat) (name : String) (childIno : Nat) (etype : BitVec 8) : FsProg Bool := do
  match ← readInode childIno with
  | none => pure false
  | some child => do
    let child := { child with nlink := satInc child.nlink }
    let _ ← writeInode childIno child
    if ← dirAddEntry dirIno name childIno etype then pure true
    else do
      let _ ← writeInode childIno { child with nlink := satDec child.nlink }
      pure false

/-- `init_dir`. -/
def initDir (ino parentIno : Nat) : FsProg Bool := do
  match ← readInode ino with
  | none => pure false
  | some inode =>
    if inode.itype ≠ itypeDir then pure false
    else
      match ← allocBlock with
      | none => pure false
      | some blk => do
        let buf := direntWrite zeroBlock 0 ino (nameBytes ".") itypeDir
        let buf := direntWrite buf direntrySize parentIno (nameBytes "..") itypeDir
        let _ ← writeBlk blk buf
        let _ ← writeInode ino { inode with
          direct := update inode.direct 0 (BitVec.ofNat 32 blk), size := BitVec.ofNat 32 (2 * direntrySize)
          nlink := 2#32, usedBlocks := 1#32 }
        let _ ← commitTxn
        pure true

/-- The entries of a directory block that `dir_readall` returns. -/
def readSlots (buf : Block) (total first : Nat) : List Nat → FsProg (List (String × Nat × BitVec 8))
  | [] => pure []
  | slot :: rest => do
    if total ≤ first + slot then pure []
    else
      let de := direntRead buf (slot * direntrySize)
      if de.nameLen = 0 then readSlots buf total first rest
      else do
        let name ← direntName buf (slot * direntrySize) de.nameLen
        let more ← readSlots buf total first rest
        match fromUtf8 name with
        | some s => pure ((s, de.inode, de.etype) :: more)
        | none => pure more

/-- The blocks that `dir_readall` goes through. -/
def readBlocks (inode : RawInode) (dirIno : Nat) : List Nat → FsProg (List (String × Nat × BitVec 8))
  | [] => pure []
  | block :: rest => do
    match ← getFileBlock inode dirIno block false with
    | (none, _) => pure []
    | (some blk, _) =>
      match ← readBlk blk with
      | none => pure []
      | some buf => do
        let here ← readSlots buf inode.totalEntries (block * direntriesPerBlock) (List.range direntriesPerBlock)
        let more ← readBlocks inode dirIno rest
        pure (here ++ more)

/-- `dir_readall`. -/
def dirReadall (dirIno : Nat) : FsProg (List (String × Nat × BitVec 8)) := do
  match ← readInode dirIno with
  | none => pure []
  | some inode =>
    if inode.itype ≠ itypeDir then pure []
    else readBlocks inode dirIno (List.range (divCeil inode.size.toNat blockSize))

/-- A child loses a link, and its blocks with the last one. -/
def dropLink (ino : Nat) : FsProg Unit := do
  let child := (← readInode ino).getD {}
  let nlink := satDec child.nlink
  if nlink = 0#32 then do
    fileTruncate ino
    freeInode ino
  else do
    let _ ← writeInode ino { child with nlink := nlink }

/-- What `dir_unlink` does with the entry it has found. -/
def removeEntry (dirIno blk : Nat) (buf : Block) (off : Nat) (de : Dirent) : FsProg Unit := do
  dropLink de.inode
  bumpParent dirIno de.etype satDec
  let _ ← writeBlk blk (direntClear buf off)
  let _ ← commitTxn
  pure ()

/-- `dir_unlink`. -/
def dirUnlink (dirIno : Nat) (name : String) : FsProg Bool := do
  match ← readInode dirIno with
  | none => pure false
  | some inode => do
    let total := inode.totalEntries
    let r ← Prog.findSome (List.range (divCeil total direntriesPerBlock)) fun block => do
      match ← getFileBlock inode dirIno block false with
      | (none, _) => pure (some false)
      | (some blk, _) =>
        match ← readBlk blk with
        | none => pure (some false)
        | some buf =>
          scanBlock buf total (block * direntriesPerBlock) (nameBytes name) fun off de => do
            removeEntry dirIno blk buf off de
            pure (some true)
    pure (r.getD false)

/-! ## Formatting and mounting -/

def ofsMagic : BitVec 32 := 0x4F564653#32
def ofsVersion : BitVec 32 := 3#32

/-- The superblock of a volume. -/
def superblock (total : BitVec 32) : Block :=
  putU32 (putU32 (putU32 (putU32 zeroBlock 0 ofsMagic) 4 ofsVersion) 8 total) 12 (headerCrc ofsMagic ofsVersion total)

/-- The block bitmap with the system blocks and the journal in use. -/
def freshBitmap : Block := (List.range dataStart).foldl (fun b i => putBit b i true) zeroBlock

def rootInodeValue : RawInode := { itype := itypeDir, nlink := 1#32 }

namespace OfsState

/-- A loop of device writes whose results are ignored. -/
def writeDevice : List (Nat × Block) → Cmd OfsState Unit
  | [] => pure ()
  | (blk, data) :: ws => do
    let _ ← onJournal (Ofs.writeBlock blk data)
    writeDevice ws

/-- What `mkfs` writes to the device directly. -/
def mkfsWrites (total : Nat) : List (Nat × Block) :=
  [(0, superblock (BitVec.ofNat 32 total)), (blockBitmapBlk, freshBitmap), (inodeBitmapBlk, zeroBlock)] ++
    (List.range inodeTableBlocks).map (fun i => (inodeTableStart + i, zeroBlock)) ++ [(journalHdrBlk, Ofs.clearHeader)]

/-- The root directory of a new volume. -/
def mkfsRoot : FsProg Unit := do
  bitmapSet inodeBitmapBlk rootInode true
  let _ ← writeInode rootInode rootInodeValue
  let _ ← commitTxn
  pure ()

/-- `mkfs`. -/
def mkfs : Cmd OfsState Unit := do
  let s ← Cmd.get
  writeDevice (mkfsWrites s.totalBlocks)
  mkfsRoot.run handle

-- not to be run by the elaborator
attribute [irreducible] mkfs

/-- The magic, version and checksum of a superblock are those of a volume. -/
def validSuperblock (buf : Block) : Prop :=
  u32Le buf 0 = ofsMagic ∧ u32Le buf 4 = ofsVersion ∧
    headerCrc (u32Le buf 0) (u32Le buf 4) (u32Le buf 8) = u32Le buf 12

instance (buf : Block) : Decidable (validSuperblock buf) := inferInstanceAs (Decidable (_ ∧ _))

/-- `OfsState::new` on a device whose first block can be read: the journal is replayed, and a volume that is not
recognised is formatted. -/
def mount (dev : Dev) : OfsState :=
  let buf := dev.disk 0
  let s : OfsState := { dev := dev, totalBlocks := 2048 }
  let s := (onJournal Ofs.journalReplay s).2
  if validSuperblock buf then { s with totalBlocks := (u32Le buf 8).toNat }
  else (mkfs { s with totalBlocks := if 68 < (u32Le buf 8).toNat then (u32Le buf 8).toNat else 2048 }).2

end OfsState
end OpenV.Vfs
