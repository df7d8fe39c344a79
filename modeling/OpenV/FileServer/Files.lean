import OpenV.FileServer.Block
import OpenV.Vfs.Cache

/- The contents of files (`user/vfs-server/src/main.rs`): reading and writing the nodes of
   a tree in memory, `ftruncate`, and the copy that the first write to a file of the
   archive makes. A file is a node of a tree or an inode of the block file system; what is
   said about it is its size and the bytes that single reads return.

   `ftruncate` keeps the law of a byte array for files in memory only: a file of the
   archive loses its contents, and the length is not handed on to the block file system.
   The copy has no more than the 4096 bytes that one call of the kernel returns. -/
namespace OpenV.FileServer

open Cmd Function FsNode List
open OpenV.Vfs (FsProg OfsState InodeCache RawInode Request handle lookupPath addUsize maxInodes itypeFile zeroBlock
  blockBitmapBlk)

/-! ## Truncation of an inode -/

section Inode
variable {s : OfsState} {ino : Nat}

/-- After `invalidate` the cache has no answer. -/
theorem get_invalidate (c : InodeCache) (ino : Nat) : (c.invalidate ino).get ino = none := by
  unfold InodeCache.invalidate
  cases hf : c.first ino with
  | none =>
    unfold InodeCache.get
    rw [hf]
    rfl
  | some j =>
    -- the keys are as they were, so the same entry is the first one
    have hkeys : ∀ i, (update c.entries j ((c.entries j).1, none) i).1 = (c.entries i).1 := fun i => by
      by_cases hi : i = j
      · rw [hi, update_self]
      · rw [update_of_ne hi]
    have hfirst : ({ c with entries := update c.entries j ((c.entries j).1, none) } : InodeCache).first ino =
        some j := by
      unfold InodeCache.first
      simp only [hkeys]
      exact hf
    unfold InodeCache.get
    dsimp only
    rw [hfirst, Option.bind_some, update_self]

/-- The requests that read, and those with which blocks are given back. -/
def Frees : Request → Prop
  | .readBlk _ => True
  | .readInode _ => True
  | .writeBlk blk _ => blk = blockBitmapBlk
  | .panic _ => True
  | _ => False

theorem frees_freeBlock (blk : Nat) : (Vfs.freeBlock blk).Within Frees := by
  refine .ite (fun _ => ?_) fun _ => .pure _
  refine .bindSome (.request trivial) fun buf => ?_
  exact .ite (fun _ => ⟨trivial, fun r => nomatch r⟩) fun _ => .bind (.request rfl) fun _ => .pure _

theorem frees_freeIndirectBlocks (depth : Nat) : ∀ blk, (Vfs.freeIndirectBlocks depth blk).Within Frees := by
  induction depth with
  | zero =>
    intro blk
    exact .early fun _ => frees_freeBlock blk
  | succ depth ih =>
    intro blk
    refine .early fun _ => .bindSome (.request trivial) fun ib => ?_
    exact .bind (.forEach (fun i => .onlyIf (ih _)) _) fun _ => frees_freeBlock blk

theorem readInode_sound (h : s.Sound) (hino : ino < maxInodes) :
    ∃ n s', handle (.readInode ino) s = (.ok (some n), s') ∧ s'.Sound := by
  have hrun := h.readInode hino
  cases hc : s.cache.get ino with
  | some n =>
    rw [hc] at hrun
    exact ⟨n, s, hrun, h⟩
  | none =>
    rw [hc] at hrun
    exact ⟨_, _, hrun, h.withCache _⟩

/-- Such requests leave a sound state, whatever the cache has. -/
theorem run_frees {α : Type} {p : FsProg α} (hp : p.Within Frees) (h : s.Sound) :
    (p.run handle).wp (fun _ s' => s'.Sound) (fun _ => False) (fun _ => True) s := by
  refine Prog.run_within (fun q s hq h => ?_) hp h
  cases q with
  | readBlk b =>
    exact wp_of_ok (h.readBlk b) h
  | readInode ino =>
    by_cases hino : ino < maxInodes
    · obtain ⟨n, s', hr, hs'⟩ := readInode_sound h hino
      exact wp_of_ok hr hs'
    · exact wp_of_ok (OfsState.readInode_out (by omega)) h
  | writeBlk b d =>
    refine wp_of_ok rfl (h.writeBlk ?_ d).1
    rw [show b = blockBitmapBlk from hq]
    decide
  | panic msg => exact (wp_die msg).mpr trivial
  | invalidate | commitTxn | totalBlocks => exact hq.elim

/-- One such part of a program. -/
theorem run_frees_bind {p : FsProg Unit} {k : Unit → FsProg Unit} {Q : Unit → OfsState → Prop} (hp : p.Within Frees)
    (h : s.Sound) (hk : ∀ s', s'.Sound → ((k ()).run handle).wp Q (fun _ => False) (fun _ => True) s') :
    ((p >>= k).run handle).wp Q (fun _ => False) (fun _ => True) s := by
  rw [Prog.run_bind, wp_bind]
  exact wp_imp (run_frees hp h) fun _ => hk

/-- Right after an inode is written and committed, `read_inode` returns it, whatever the cache had. -/
theorem readInode_written (h : s.Sound) (hino : ino < maxInodes) (n : RawInode) :
    ∃ s', (do let _ ← Vfs.writeInode ino n; let _ ← Vfs.commitTxn; pure () : FsProg Unit).run handle s = (.ok (), s') ∧
      (OfsState.readInode ino s').1 = .ok (some n) := by
  obtain ⟨s₁, hw, hs₁, hvol, hcache⟩ := h.writeInode hino n
  have hread : ∀ s' : OfsState, s'.Sound → s'.vol = s₁.vol → s'.cache = s₁.cache →
      (OfsState.readInode ino s').1 = .ok (some n) := by
    intro s' hs' hv hc
    rw [hs'.readInode hino, hc, hcache, get_invalidate, hv, hvol, Vfs.Vol.inodeAt_putInode_self]
  rw [Prog.run_bind]
  rcases hs₁.commitTxn with ⟨hpos, hlen, hrun⟩ | ⟨-, hrun⟩
  · exact ⟨s₁.committed, (Cmd.bind_ok hw).trans (Cmd.bind_ok hrun),
      hread _ (hs₁.committed hpos hlen).1 (hs₁.committed hpos hlen).2 rfl⟩
  · exact ⟨s₁, (Cmd.bind_ok hw).trans (Cmd.bind_ok hrun), hread _ hs₁ rfl rfl⟩

/-- Right after `file_truncate`, `read_inode` has the size zero. -/
theorem truncate_size (h : s.Sound) (hino : ino < maxInodes) : ((Vfs.fileTruncate ino).run handle).wp
    (fun _ s' => ∃ n : RawInode, (OfsState.readInode ino s').1 = .ok (some n) ∧ n.size = 0#32)
    (fun _ => False) (fun _ => True) s := by
  obtain ⟨n, s₁, hr, hs₁⟩ := readInode_sound h hino
  have hread : (Vfs.readInode ino).run handle s = (.ok (some n), s₁) := Cmd.bind_ok hr
  rw [Vfs.fileTruncate, Prog.run_bind, wp_bind, wp_of_eq hread]
  refine run_frees_bind (.forEach (fun i => .onlyIf (frees_freeBlock _)) _) hs₁ fun s₂ hs₂ => ?_
  refine run_frees_bind (.onlyIf (frees_freeIndirectBlocks ..)) hs₂ fun s₃ hs₃ => ?_
  refine run_frees_bind (.onlyIf (frees_freeIndirectBlocks ..)) hs₃ fun s₄ hs₄ => ?_
  obtain ⟨s', hw, hread⟩ := readInode_written hs₄ hino { n with
    direct := fun _ => 0#32, indirect := 0#32, doubleIndirect := 0#32, size := 0#32, usedBlocks := 0#32 }
  rw [wp_of_eq hw]
  exact ⟨_, hread, rfl⟩

end Inode

/-! ## Nodes -/

/-- `Vec::resize(len, 0)`. A vector cannot have more than `isize::MAX` bytes. -/
def resize {σ : Type} (data : List (BitVec 8)) (len : Nat) : Cmd σ (List (BitVec 8)) :=
  if len ≤ data.length then pure (data.take len)
  else if 2 ^ 63 ≤ len then Cmd.die "capacity overflow"
  else pure (data ++ replicate (len - data.length) 0#8)

/-- `if buf.len() < fin { buf.resize(fin, 0) }` -/
def growTo {σ : Type} (buf : List (BitVec 8)) (fin : Nat) : Cmd σ (List (BitVec 8)) :=
  if buf.length < fin then resize buf fin else pure buf

/-- The end of `write`: `data` is copied to `offset`, where the buffer is made long enough. -/
def copyAt {σ : Type} (buf : List (BitVec 8)) (offset : Nat) (data : List (BitVec 8)) : Cmd σ (List (BitVec 8)) := do
  let fin := addUsize offset data.length
  let buf ← growTo buf fin
  if fin < offset then Cmd.die "slice index starts behind its end"
  else pure (buf.take offset ++ data ++ buf.drop fin)

/-- The copy of a file of the archive, from one call of the kernel. -/
def promote {σ : Type} (a : Vfs.Bytes) (tarOffset size : Nat) : Cmd σ (List (BitVec 8)) := do
  let mem ← resize [] size
  let n := initrdRead a size tarOffset
  pure ((range n).map (fun i => a.get (tarOffset + i)) ++ mem.drop n)

/-- A vector of another length, with zeros at the end. -/
def resized (data : List (BitVec 8)) (len : Nat) : List (BitVec 8) :=
  data.take len ++ replicate (len - data.length) 0#8

section Vec
variable {σ : Type} {data : List (BitVec 8)} {len offset : Nat}

theorem length_resized : (resized data len).length = len := by
  unfold resized
  rw [length_append, length_take, length_replicate]
  omega

theorem get_resized {i : Nat} (hi : i < len) :
    (resized data len)[i]? = if i < data.length then data[i]? else some 0#8 := by
  unfold resized
  by_cases h : i < data.length
  · rw [if_pos h, getElem?_append_left (by rw [length_take]; omega), getElem?_take_of_lt hi]
  · rw [if_neg h, getElem?_append_right (by rw [length_take]; omega), getElem?_replicate_of_lt]
    rw [length_take]
    omega

theorem resize_ok (h : len ≤ data.length ∨ len < 2 ^ 63) (s : σ) : resize data len s = (.ok (resized data len), s) := by
  unfold resize resized
  by_cases hlen : len ≤ data.length
  · rw [if_pos hlen, Nat.sub_eq_zero_of_le hlen, replicate_zero, append_nil]
    rfl
  · rw [if_neg hlen, if_neg (by omega), take_of_length_le (by omega)]
    rfl

theorem resize_panic (hlen : data.length < len) (h : 2 ^ 63 ≤ len) (s : σ) :
    (resize data len s).1 = .panic "capacity overflow" := by
  rw [resize, if_neg (by omega), if_pos h]
  rfl

/-- What is around the bytes that were copied stays. -/
theorem copyAt_ok (buf : List (BitVec 8)) (hoff : offset + data.length < 2 ^ 64)
    (hcap : offset + data.length ≤ buf.length ∨ offset + data.length < 2 ^ 63) (s : σ) :
    ∃ buf', copyAt buf offset data s = (.ok buf', s) ∧
      ∀ i < buf.length, i < offset ∨ offset + data.length ≤ i → buf'[i]? = buf[i]? := by
  have hfin : addUsize offset data.length = offset + data.length := Nat.mod_eq_of_lt hoff
  -- the buffer once it is long enough
  let grown := if buf.length < offset + data.length then resized buf (offset + data.length) else buf
  have hlen : offset + data.length ≤ grown.length := by
    show _ ≤ (ite _ _ _ : List (BitVec 8)).length
    split_ifs with h
    · rw [length_resized]
    · omega
  have hget : ∀ i < buf.length, grown[i]? = buf[i]? := by
    intro i hi
    show (ite _ _ _ : List (BitVec 8))[i]? = _
    split_ifs with h
    · rw [get_resized (by omega), if_pos hi]
    · rfl
  refine ⟨grown.take offset ++ data ++ grown.drop (offset + data.length), ?_, fun i hi hout => ?_⟩
  · have hgrow : growTo buf (offset + data.length) s = (.ok grown, s) := by
      unfold growTo
      show _ = (Res.ok (ite _ _ _), s)
      split_ifs with h
      · exact resize_ok (by omega) s
      · rfl
    unfold copyAt
    rw [hfin]
    refine (bind_ok hgrow).trans ?_
    rw [if_neg (by omega)]
    rfl
  · rw [← hget i hi]
    rcases hout with h | h
    · rw [append_assoc, getElem?_append_left (by rw [length_take]; omega), getElem?_take_of_lt h]
    · rw [getElem?_append_right (by rw [length_append, length_take]; omega), getElem?_drop,
        length_append, length_take]
      congr 1
      omega

theorem copyAt_panic (buf data : List (BitVec 8)) (hoff : offset < 2 ^ 64) (hdata : data.length < 2 ^ 63)
    (h : 2 ^ 64 ≤ offset + data.length ∨ buf.length < offset + data.length ∧ 2 ^ 63 ≤ offset + data.length) (s : σ) :
    ∃ msg, (copyAt buf offset data s).1 = .panic msg := by
  unfold copyAt
  by_cases hwrap : 2 ^ 64 ≤ offset + data.length
  · -- the end is in front of the start
    have hfin : addUsize offset data.length < offset := by
      unfold addUsize
      omega
    have hgrow : ∃ buf', growTo buf (addUsize offset data.length) s = (.ok buf', s) := by
      unfold growTo
      split_ifs with hlt
      · exact ⟨_, resize_ok (.inr (by unfold addUsize at hfin ⊢; rw [Nat.mod_eq_sub_mod hwrap]; omega)) s⟩
      · exact ⟨buf, rfl⟩
    obtain ⟨buf', hgrow⟩ := hgrow
    refine ⟨"slice index starts behind its end", ?_⟩
    rw [bind_ok hgrow, if_pos hfin]
    rfl
  · have hfin : addUsize offset data.length = offset + data.length := Nat.mod_eq_of_lt (by omega)
    obtain ⟨hlt, hbig⟩ := h.resolve_left hwrap
    refine ⟨"capacity overflow", bind_panic ?_⟩
    rw [hfin, growTo, if_pos hlt, resize_panic hlt hbig]

/-- The copy of a file of the archive. -/
theorem promote_ok (a : Vfs.Bytes) (tarOffset : Nat) {size : Nat} (h : size < 2 ^ 63) (s : σ) :
    ∃ mem, promote a tarOffset size s = (.ok mem, s) ∧ mem.length = size ∧
      ∀ i < size, mem[i]? = some (if tarOffset + i < a.len ∧ i < 4096 then a.get (tarOffset + i) else 0#8) := by
  have hle : initrdRead a size tarOffset ≤ size := by
    unfold initrdRead
    split_ifs <;> omega
  have hread : ∀ i < size, i < initrdRead a size tarOffset ↔ tarOffset + i < a.len ∧ i < 4096 := by
    intro i hi
    unfold initrdRead
    split_ifs <;> omega
  refine ⟨_, bind_ok (resize_ok (.inr h) s), ?_, fun i hi => ?_⟩
  · rw [length_append, length_map, length_range, length_drop, length_resized]
    omega
  · by_cases hn : i < initrdRead a size tarOffset
    · rw [getElem?_append_left (by simpa using hn), if_pos ((hread i hi).mp hn)]
      simp [hn]
    · rw [getElem?_append_right (by simpa using hn), if_neg fun h => hn ((hread i hi).mpr h), getElem?_drop,
        get_resized (by rw [length_map, length_range]; omega)]
      rfl

theorem promote_panic (a : Vfs.Bytes) (tarOffset : Nat) {size : Nat} (h : 2 ^ 63 ≤ size) (s : σ) :
    (promote a tarOffset size s).1 = .panic "capacity overflow" :=
  bind_panic (resize_panic (by simp; omega) h s)

end Vec

/-- `Vfs::read` of a node. -/
def FsNode.read (a : Vfs.Bytes) (offset len : Nat) : FsNode → Option (List (BitVec 8))
  | .tarFile tarOffset size =>
    if size ≤ offset then some []
    else
      let n := initrdRead a (min len (size - offset)) (tarOffset + offset)
      some ((range n).map fun i => a.get (tarOffset + offset + i))
  | .memFile data => some ((data.drop offset).take len)
  | _ => none

/-- `Vfs::write` of a node, with the node as it is left. -/
def FsNode.write {σ : Type} (a : Vfs.Bytes) (offset : Nat) (data : List (BitVec 8)) : FsNode → Cmd σ (Option FsNode)
  | .memFile buf => do return some (.memFile (← copyAt buf offset data))
  | .tarFile tarOffset size => do
    let mem ← promote a tarOffset size
    return some (.memFile (← copyAt mem offset data))
  | _ => pure none

/-- `Vfs::truncate` of a node. -/
def FsNode.truncate {σ : Type} (length : Nat) : FsNode → Cmd σ (Option FsNode)
  | .memFile data => do return some (.memFile (← resize data length))
  | .tarFile _ _ => do return some (.memFile (← resize [] length))
  | _ => pure none

/-- `f.offset = offset` for an open file. -/
def OpenTable.setOffset (t : OpenTable) (fd : BitVec 32) (f : OpenFile) (offset : BitVec 64) : OpenTable where
  files := update t.files fd (some { f with offset := offset })
  nextFd := t.nextFd

namespace Server

/-- A change of one node. -/
def onNode {β : Type} (nsId : BitVec 32) (path : String) (act : FsNode → Cmd (Server β) (Option FsNode)) :
    Cmd (Server β) Bool := do
  let v ← nsVfs nsId
  match v.nodes path with
  | none => pure false
  | some node =>
    match ← act node with
    | none => pure false
    | some node => do
      setNs nsId (v.insert path node)
      pure true

/-- `OP_FTRUNCATE`. -/
def ftruncate (fd : BitVec 32) (length : Nat) : Cmd (Server OfsState) Bool := do
  let s ← Cmd.get
  match s.openTable.files fd with
  | none => pure false
  | some f =>
    match stripMnt f.path with
    | some p => onBlk (ofs.truncate p)
    | none => onNode f.nsId (normalizePath f.path) (truncate length)

/-- `Vfs::write` for a path in the block file system. -/
def ofsWrite (path : String) (offset : Nat) (data : Vfs.Bytes) : FsProg Bool := do
  match ← lookupPath path with
  | none => pure false
  | some (ino, etype) =>
    if etype ≠ itypeFile then pure false
    else
      match ← Vfs.fileWrite ino offset data with
      | .ok _ => pure true
      | .error _ => pure false

/-- `Vfs::write`. -/
def writeFile (a : Vfs.Bytes) (f : OpenFile) (start : Nat) (data : List (BitVec 8)) : Cmd (Server OfsState) Bool :=
  match stripMnt f.path with
  | some p => onBlk ((ofsWrite p start { len := data.length, get := fun i => data.getD i 0#8 }).run handle)
  | none => onNode f.nsId (normalizePath f.path) (write a start data)

/-- Where `OP_WRITE` begins to write. -/
def startOf (f : OpenFile) (offset : BitVec 64) : BitVec 64 := if offset = BitVec.allOnes 64 then f.offset else offset

/-- `OP_WRITE` of a buffer of the client, of which at most a megabyte is written. -/
def write (a : Vfs.Bytes) (fd : BitVec 32) (offset : BitVec 64) (buf : List (BitVec 8)) : Cmd (Server OfsState) Bool := do
  let s ← Cmd.get
  match s.openTable.files fd with
  | none => pure false
  | some f =>
    let data := buf.take (1024 * 1024)
    let start := startOf f offset
    if ← writeFile a f start.toNat data then do
      Cmd.modify fun s => { s with openTable := s.openTable.setOffset fd f (start + BitVec.ofNat 64 data.length) }
      pure true
    else pure false

end Server

/-! ## What a file is -/

/-- A file: a node of the tree of a namespace, or an inode. -/
inductive FileRef where
  | node (nsId : BitVec 32) (path : String)
  | inode (ino : Nat)
  deriving DecidableEq

/-- The node has contents. -/
def FsNode.isFile : FsNode → Bool
  | .memFile _ => true
  | .tarFile _ _ => true
  | _ => false

namespace Server

/-- The regular file that a descriptor is open on. -/
def fileOf (s : Server OfsState) (fd : BitVec 32) : Option FileRef :=
  match s.openTable.files fd with
  | none => none
  | some f =>
    match stripMnt f.path with
    | some p =>
      match ((lookupPath p).run handle s.blk).1 with
      | .ok (some (ino, etype)) => if etype = itypeFile then some (.inode ino) else none
      | _ => none
    | none =>
      if ((s.namespaces f.nsId).nodes (normalizePath f.path)).any isFile
      then some (.node f.nsId (normalizePath f.path)) else none

/-- The size, as `stat` has it. -/
def sizeOf (s : Server OfsState) : FileRef → Option Nat
  | .node nsId path => ((s.namespaces nsId).statNode path).map (·.2)
  | .inode ino =>
    match (OfsState.readInode ino s.blk).1 with
    | .ok (some info) => some info.size.toNat
    | _ => none

/-- The byte that a read at an offset returns. -/
def byteOf (a : Vfs.Bytes) (s : Server OfsState) : FileRef → Nat → Option (BitVec 8)
  | .node nsId path, i => (((s.namespaces nsId).nodes path).bind (FsNode.read a i 1)).bind head?
  | .inode ino, i =>
    match ((Vfs.fileRead ino i { len := 1, get := fun _ => 0#8 }).run handle s.blk).1 with
    | .ok (.ok out) => if out.len = 0 then none else some (out.get 0)
    | _ => none

/-- In `s'` the file has `n` bytes: those it had in `s`, as far as there were so many, and zeros. -/
structure Truncated (a : Vfs.Bytes) (s s' : Server OfsState) (file : FileRef) (n : Nat) : Prop where
  size : s'.sizeOf file = some n
  kept : ∀ old, s.sizeOf file = some old → ∀ i < min old n, s'.byteOf a file i = s.byteOf a file i
  zero : ∀ old, s.sizeOf file = some old → ∀ i, old ≤ i → i < n → s'.byteOf a file i = some 0#8

/-- `ftruncate` of an open file does what it is for. -/
def TruncateLaw (a : Vfs.Bytes) (s : Server OfsState) (fd : BitVec 32) (n : Nat) : Prop :=
  ∀ file, s.fileOf fd = some file → ∃ s', ftruncate fd n s = (.ok true, s') ∧ Truncated a s s' file n

/-- The first write to a file of the archive leaves the bytes around it. -/
def FirstWriteLaw (a : Vfs.Bytes) (s : Server OfsState) (fd : BitVec 32) (offset : BitVec 64) (buf : List (BitVec 8)) :
    Prop :=
  ∀ f tarOffset size, s.openTable.files fd = some f → stripMnt f.path = none →
    (s.namespaces f.nsId).nodes (normalizePath f.path) = some (.tarFile tarOffset size) →
    ∃ s', write a fd offset buf s = (.ok true, s') ∧
      ∀ i < size, i < (startOf f offset).toNat ∨ (startOf f offset).toNat + min buf.length (1024 * 1024) ≤ i →
        s'.byteOf a (.node f.nsId (normalizePath f.path)) i = s.byteOf a (.node f.nsId (normalizePath f.path)) i

/-- When `ftruncate` keeps the law. -/
def TruncateOk (a : Vfs.Bytes) (s : Server OfsState) (fd : BitVec 32) (n : Nat) : Prop :=
  ∀ file, s.fileOf fd = some file →
    match file with
    | .node nsId path =>
      match (s.namespaces nsId).nodes path with
      | some (.memFile data) => n ≤ data.length ∨ n < 2 ^ 63
      | some (.tarFile tarOffset size) =>
        n < 2 ^ 63 ∧ ∀ i < min size n, tarOffset + i < a.len ∧ a.get (tarOffset + i) = 0#8
      | _ => False
    | .inode ino => n = 0 ∧ ino < maxInodes ∧ ∃ s', ftruncate fd n s = (.ok true, s')

/-- When the first write to a file of the archive keeps the bytes around it. -/
def FirstWriteOk (a : Vfs.Bytes) (s : Server OfsState) (fd : BitVec 32) (offset : BitVec 64) (buf : List (BitVec 8)) :
    Prop :=
  ∀ f tarOffset size, s.openTable.files fd = some f → stripMnt f.path = none →
    (s.namespaces f.nsId).nodes (normalizePath f.path) = some (.tarFile tarOffset size) →
    let start := (startOf f offset).toNat
    let fin := start + min buf.length (1024 * 1024)
    size < 2 ^ 63 ∧ fin < 2 ^ 64 ∧ (fin ≤ size ∨ fin < 2 ^ 63) ∧
      ∀ i < size, i < start ∨ fin ≤ i → tarOffset + i < a.len ∧ (4096 ≤ i → a.get (tarOffset + i) = 0#8)

/-! ## Bytes of nodes -/

section Nodes
variable {a : Vfs.Bytes} {s : Server OfsState} {nsId : BitVec 32} {path : String} {data : List (BitVec 8)}
  {tarOffset size i : Nat}

theorem byteOf_mem (h : (s.namespaces nsId).nodes path = some (.memFile data)) :
    s.byteOf a (.node nsId path) i = data[i]? := by
  show (((s.namespaces nsId).nodes path).bind (read a i 1)).bind head? = _
  rw [h]
  simp [FsNode.read, head?_take]

theorem byteOf_tar (h : (s.namespaces nsId).nodes path = some (.tarFile tarOffset size)) :
    s.byteOf a (.node nsId path) i =
      if i < size ∧ tarOffset + i < a.len then some (a.get (tarOffset + i)) else none := by
  show (((s.namespaces nsId).nodes path).bind (read a i 1)).bind head? = _
  rw [h]
  show (read a i 1 (.tarFile tarOffset size)).bind head? = _
  unfold FsNode.read initrdRead
  dsimp only
  by_cases hi : i < size
  · rw [if_neg (by omega), Nat.min_eq_left (show 1 ≤ size - i by omega)]
    by_cases ha : tarOffset + i < a.len
    · rw [if_neg (by omega), if_pos ⟨hi, ha⟩, show min (min 1 (a.len - (tarOffset + i))) 4096 = 1 by omega]
      rfl
    · rw [if_pos (by omega), if_neg fun h => ha h.2]
      rfl
  · rw [if_pos (by omega), if_neg fun h => hi h.1]
    rfl

theorem sizeOf_mem (h : (s.namespaces nsId).nodes path = some (.memFile data)) :
    s.sizeOf (.node nsId path) = some data.length := by
  show ((s.namespaces nsId).statNode path).map (·.2) = _
  unfold Vfs.statNode
  rw [h]
  rfl

theorem sizeOf_tar (h : (s.namespaces nsId).nodes path = some (.tarFile tarOffset size)) :
    s.sizeOf (.node nsId path) = some size := by
  show ((s.namespaces nsId).statNode path).map (·.2) = _
  unfold Vfs.statNode
  rw [h]
  rfl

/-- A node is put in a tree. -/
def setNode (s : Server OfsState) (nsId : BitVec 32) (path : String) (node : FsNode) : Server OfsState :=
  { s with namespaces := update s.namespaces nsId ((s.namespaces nsId).insert path node) }

theorem nodes_setNode (s : Server OfsState) (nsId : BitVec 32) (path : String) (node : FsNode) :
    ((s.setNode nsId path node).namespaces nsId).nodes path = some node := by
  show ((update s.namespaces nsId _) nsId).nodes path = _
  rw [update_self]
  exact update_self ..

variable {node node' : FsNode} {fd : BitVec 32} {f : OpenFile} {n : Nat}

theorem onNode_ok {act : FsNode → Cmd (Server OfsState) (Option FsNode)}
    (h : (s.namespaces nsId).nodes path = some node) (hact : act node s = (.ok (some node'), s)) :
    onNode nsId path act s = (.ok true, s.setNode nsId path node') := by
  rw [onNode, bind_ok (show nsVfs nsId s = (.ok (s.namespaces nsId), s) from rfl), h]
  exact bind_ok hact

theorem onNode_panic (act : FsNode → Cmd (Server OfsState) (Option FsNode)) (msg : String)
    (h : (s.namespaces nsId).nodes path = some node) (hact : (act node s).1 = .panic msg) :
    (onNode nsId path act s).1 = .panic msg := by
  rw [onNode, bind_ok (show nsVfs nsId s = (.ok (s.namespaces nsId), s) from rfl), h]
  exact bind_panic hact

/-- `ftruncate` of an open file, by where its path leads. -/
theorem ftruncate_open (n : Nat) (hf : s.openTable.files fd = some f) :
    ftruncate fd n s = (match stripMnt f.path with
      | some p => onBlk (ofs.truncate p)
      | none => onNode f.nsId (normalizePath f.path) (truncate n)) s := by
  rw [ftruncate, bind_get, hf]

/-- `ftruncate` of a file in memory. -/
theorem truncate_mem (h : (s.namespaces nsId).nodes path = some (.memFile data)) :
    (∃ s', onNode nsId path (truncate n) s = (.ok true, s') ∧ Truncated a s s' (.node nsId path) n) ↔
      n ≤ data.length ∨ n < 2 ^ 63 := by
  by_cases hn : n ≤ data.length ∨ n < 2 ^ 63
  · refine iff_of_true ⟨_, onNode_ok h (bind_ok (resize_ok hn s)), ?_⟩ hn
    have h' := nodes_setNode s nsId path (.memFile (resized data n))
    refine ⟨?_, fun old hold i hi => ?_, fun old hold i hle hi => ?_⟩
    · rw [sizeOf_mem h', length_resized]
    · rw [sizeOf_mem h] at hold
      cases hold
      rw [byteOf_mem h', byteOf_mem h, get_resized (by omega), if_pos (by omega)]
    · rw [sizeOf_mem h] at hold
      cases hold
      rw [byteOf_mem h', get_resized hi, if_neg (by omega)]
  · refine iff_of_false (fun ⟨s', hs', _⟩ => ?_) hn
    have hpanic := onNode_panic (truncate n) "capacity overflow" h
      (bind_panic (resize_panic (by omega) (by omega) s))
    rw [hs'] at hpanic
    cases hpanic

/-- `ftruncate` of a file of the archive: what is left is zeros. -/
theorem truncate_tar (h : (s.namespaces nsId).nodes path = some (.tarFile tarOffset size)) :
    (∃ s', onNode nsId path (truncate n) s = (.ok true, s') ∧ Truncated a s s' (.node nsId path) n) ↔
      n < 2 ^ 63 ∧ ∀ i < min size n, tarOffset + i < a.len ∧ a.get (tarOffset + i) = 0#8 := by
  by_cases hn : n < 2 ^ 63
  · have hrun : onNode nsId path (truncate n) s = _ := onNode_ok h (bind_ok (resize_ok (.inr hn) s))
    have h' := nodes_setNode s nsId path (.memFile (resized [] n))
    have hzero : ∀ i < n, (s.setNode nsId path (.memFile (resized [] n))).byteOf a (.node nsId path) i = some 0#8 := by
      intro i hi
      rw [byteOf_mem h', get_resized hi]
      rfl
    constructor
    · rintro ⟨s', hs', ht⟩
      rw [hrun] at hs'
      cases hs'
      refine ⟨hn, fun i hi => ?_⟩
      have hkept := ht.kept size (sizeOf_tar h) i hi
      rw [hzero i (by omega), byteOf_tar h] at hkept
      split_ifs at hkept with hin
      exact ⟨hin.2, (Option.some.inj hkept).symm⟩
    · rintro ⟨-, hz⟩
      refine ⟨_, hrun, ?_, fun old hold i hi => ?_, fun old hold i hle hi => hzero i hi⟩
      · rw [sizeOf_mem h', length_resized]
      · rw [sizeOf_tar h] at hold
        cases hold
        rw [hzero i (by omega), byteOf_tar h, if_pos ⟨by omega, (hz i hi).1⟩, (hz i hi).2]
  · refine iff_of_false (fun ⟨s', hs', _⟩ => ?_) fun h => hn h.1
    have hpanic := onNode_panic (truncate n) "capacity overflow" h
      (bind_panic (resize_panic (by simp; omega) (by omega) s))
    rw [hs'] at hpanic
    cases hpanic

theorem onBlk_eq {α β : Type} (c : Cmd β α) (s : Server β) :
    onBlk c s = ((c s.blk).1, { s with blk := (c s.blk).2 }) := rfl

/-- `ftruncate` of a file of the block file system: what is left is empty. -/
theorem truncate_inode {p : String} {ino : Nat} (hs : s.blk.Sound) (hf : s.openTable.files fd = some f)
    (hm : stripMnt f.path = some p) (hlookup : ((lookupPath p).run handle s.blk).1 = .ok (some (ino, itypeFile))) :
    (∃ s', ftruncate fd n s = (.ok true, s') ∧ Truncated a s s' (.inode ino) n) ↔
      n = 0 ∧ ino < maxInodes ∧ ∃ s', ftruncate fd n s = (.ok true, s') := by
  have hout : ∀ s' : Server OfsState, ¬ino < maxInodes → s'.sizeOf (.inode ino) = none := by
    intro s' hino
    have hread : OfsState.readInode ino s'.blk = (.ok none, s'.blk) := OfsState.readInode_out (by omega)
    simp only [sizeOf, hread]
  have hsize : ∀ s', ino < maxInodes → ftruncate fd n s = (.ok true, s') → s'.sizeOf (.inode ino) = some 0 := by
    intro s' hino hrun
    obtain ⟨b, hb⟩ : ∃ b, (lookupPath p).run handle s.blk = (.ok (some (ino, itypeFile)), b) :=
      ⟨_, eq_of_fst hlookup⟩
    have hbs : b.Sound := by
      have hw := run_frees ((Vfs.quiet_lookupPath p).mono fun q hq => by cases q <;> trivial) hs
      rw [wp_of_eq hb] at hw
      exact hw
    rw [ftruncate_open n hf, hm] at hrun
    dsimp only at hrun
    rw [onBlk_eq] at hrun
    have hofs : ofs.truncate p s.blk = (do Vfs.fileTruncate ino; pure true : FsProg Bool).run handle b := by
      show (ofsTruncate p).run handle s.blk = _
      unfold ofsTruncate
      rw [Prog.run_bind]
      refine (bind_ok hb).trans ?_
      dsimp only
      rw [if_neg (not_not.mpr rfl)]
    have hw := truncate_size hbs hino
    rw [hofs, Prog.run_bind] at hrun
    rcases ht : (Vfs.fileTruncate ino).run handle b with ⟨r, b'⟩
    rw [wp_of_eq ht] at hw
    cases r with
    | ok u =>
      obtain ⟨m, hread, hm0⟩ := hw
      rw [bind_ok ht] at hrun
      cases hrun
      have hread : (OfsState.readInode ino ((pure true : FsProg Bool).run handle b').2).1 = .ok (some m) := hread
      simp only [sizeOf, hread, hm0]
      rfl
    | err e => exact hw.elim
    | panic e =>
      have hrun := congrArg Prod.fst hrun
      rw [show ((Vfs.fileTruncate ino).run handle >>= _) b = Cmd.bind _ _ b from rfl, Cmd.bind, ht] at hrun
      cases hrun
  constructor
  · rintro ⟨s', hrun, ht⟩
    by_cases hino : ino < maxInodes
    · have h0 := ht.size
      rw [hsize s' hino hrun] at h0
      exact ⟨(Option.some.inj h0).symm, hino, s', hrun⟩
    · have h0 := ht.size
      rw [hout s' hino] at h0
      cases h0
  · rintro ⟨rfl, hino, s', hrun⟩
    exact ⟨s', hrun, hsize s' hino hrun, fun old _ i hi => by omega, fun old _ i _ hi => by omega⟩

/-- A write to a node. -/
theorem write_node (offset : BitVec 64) (buf : List (BitVec 8)) (hf : s.openTable.files fd = some f)
    (hm : stripMnt f.path = none) (h : (s.namespaces f.nsId).nodes (normalizePath f.path) = some node)
    (hact : node.write a (startOf f offset).toNat (buf.take (1024 * 1024)) s = (.ok (some node'), s)) :
    ∃ s', write a fd offset buf s = (.ok true, s') ∧
      (s'.namespaces f.nsId).nodes (normalizePath f.path) = some node' := by
  have hfile : writeFile a f (startOf f offset).toNat (buf.take (1024 * 1024)) s =
      (.ok true, s.setNode f.nsId (normalizePath f.path) node') := by
    unfold writeFile
    rw [hm]
    exact onNode_ok h hact
  refine ⟨⟨_, s.openTable.setOffset fd f (startOf f offset + BitVec.ofNat 64 (buf.take (1024 * 1024)).length), s.blk⟩, ?_,
    nodes_setNode s f.nsId (normalizePath f.path) node'⟩
  rw [write, bind_get, hf]
  exact bind_ok hfile

theorem write_node_panic (msg : String) (offset : BitVec 64) (buf : List (BitVec 8))
    (hf : s.openTable.files fd = some f) (hm : stripMnt f.path = none)
    (h : (s.namespaces f.nsId).nodes (normalizePath f.path) = some node)
    (hact : (node.write a (startOf f offset).toNat (buf.take (1024 * 1024)) s).1 = .panic msg) :
    (write a fd offset buf s).1 = .panic msg := by
  rw [write, bind_get, hf]
  refine bind_panic ?_
  rw [writeFile, hm]
  exact onNode_panic _ msg h hact

/-- The first write to a file of the archive. -/
theorem write_tar {start fin : Nat} (offset : BitVec 64) (buf : List (BitVec 8))
    (hf : s.openTable.files fd = some f) (hm : stripMnt f.path = none)
    (h : (s.namespaces f.nsId).nodes (normalizePath f.path) = some (.tarFile tarOffset size))
    (hst : (startOf f offset).toNat = start) (hfin : start + min buf.length (1024 * 1024) = fin) :
    (∃ s', write a fd offset buf s = (.ok true, s') ∧ ∀ i < size, i < start ∨ fin ≤ i →
        s'.byteOf a (.node f.nsId (normalizePath f.path)) i = s.byteOf a (.node f.nsId (normalizePath f.path)) i) ↔
      size < 2 ^ 63 ∧ fin < 2 ^ 64 ∧ (fin ≤ size ∨ fin < 2 ^ 63) ∧
        ∀ i < size, i < start ∨ fin ≤ i → tarOffset + i < a.len ∧ (4096 ≤ i → a.get (tarOffset + i) = 0#8) := by
  have hstart : start < 2 ^ 64 := hst ▸ (startOf f offset).isLt
  have hlen : (buf.take (1024 * 1024)).length = min buf.length (1024 * 1024) := by
    rw [length_take, Nat.min_comm]
  by_cases hsize : size < 2 ^ 63
  swap
  · refine iff_of_false (fun ⟨s', hs', _⟩ => ?_) fun h => hsize h.1
    have hpanic := write_node_panic "capacity overflow" offset buf hf hm h
      (bind_panic (promote_panic a tarOffset (by omega) s))
    rw [hs'] at hpanic
    cases hpanic
  obtain ⟨mem, hmem, hmemlen, hget⟩ := promote_ok a tarOffset hsize s
  by_cases hcap : fin < 2 ^ 64 ∧ (fin ≤ size ∨ fin < 2 ^ 63)
  swap
  · refine iff_of_false (fun ⟨s', hs', _⟩ => ?_) fun h => hcap ⟨h.2.1, h.2.2.1⟩
    obtain ⟨msg, hcopy⟩ := copyAt_panic mem (buf.take (1024 * 1024)) hstart (by omega) (by omega) s
    have hpanic := write_node_panic msg offset buf hf hm h (by
      rw [FsNode.write, Cmd.bind_ok hmem, hst]
      exact bind_panic hcopy)
    rw [hs'] at hpanic
    cases hpanic
  obtain ⟨buf', hcopy, hkept⟩ := @copyAt_ok _ (buf.take (1024 * 1024)) start mem (by omega) (by omega) s
  obtain ⟨s', hrun, hnode⟩ := write_node offset buf hf hm h
    ((bind_ok hmem).trans (bind_ok (by rw [hst]; exact hcopy)))
  -- a byte around the written ones
  have hbyte : ∀ i < size, i < start ∨ fin ≤ i →
      (s'.byteOf a (.node f.nsId (normalizePath f.path)) i = s.byteOf a (.node f.nsId (normalizePath f.path)) i ↔
        tarOffset + i < a.len ∧ (4096 ≤ i → a.get (tarOffset + i) = 0#8)) := by
    intro i hi hout
    rw [byteOf_mem hnode, byteOf_tar h, hkept i (by omega) (by omega), hget i hi]
    by_cases hin : tarOffset + i < a.len
    · have hbefore : i < size ∧ tarOffset + i < a.len := ⟨hi, hin⟩
      rw [if_pos hbefore, Option.some_inj]
      by_cases hlow : i < 4096
      · rw [if_pos ⟨hin, hlow⟩]
        exact iff_of_true rfl ⟨hin, fun h => by omega⟩
      · rw [if_neg fun h => hlow h.2]
        exact ⟨fun h => ⟨hin, fun _ => h.symm⟩, fun h => (h.2 (by omega)).symm⟩
    · have hbefore : ¬(i < size ∧ tarOffset + i < a.len) := fun h => hin h.2
      rw [if_neg hbefore]
      exact iff_of_false nofun fun h => hin h.1
  constructor
  · rintro ⟨s'', hrun', hall⟩
    rw [hrun] at hrun'
    cases hrun'
    exact ⟨hsize, hcap.1, hcap.2, fun i hi hout => (hbyte i hi hout).mp (hall i hi hout)⟩
  · rintro ⟨-, -, -, hall⟩
    exact ⟨s', hrun, fun i hi hout => (hbyte i hi hout).mpr (hall i hi hout)⟩

end Nodes

/-! ## The laws -/

/-- A server with a file of the archive, open as descriptor 1. -/
def withTarFile (size : Nat) : Server OfsState where
  namespaces := fun _ => ⟨fun path => if path = "/f" then some (.tarFile 0 size) else none⟩
  openTable := { files := fun _ => some { path := "/f", nsId := 1 } }
  blk := Vfs.blankVolume

end Server
end OpenV.FileServer
