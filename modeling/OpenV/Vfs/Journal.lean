import OpenV.Lib.Cmd

/- The journal of the block file system (`user/vfs-server/src/blockfs.rs`):
   `commit_txn` and `journal_replay`, down to the bytes of the journal header. The
   device writes one block after the other; the power may go after any number of
   writes, which ends the run as a panic would. -/
namespace OpenV.Vfs

def journalHdrBlk : Nat := 35
def journalDataBlk : Nat := 36
def journalSlots : Nat := 32
def journalMagic : BitVec 32 := 0x4F4A4C47#32

/-- The bytes of a block; offsets from 4096 on are not used. -/
abbrev Block := Nat → BitVec 8

def zeroBlock : Block := fun _ => 0#8

/-- `to_le_bytes`. -/
def leByte (v : BitVec 32) (i : Nat) : BitVec 8 := (v >>> (8 * i)).truncate 8

/-- `u32_le`. -/
def u32Le (b : Block) (off : Nat) : BitVec 32 := b (off + 3) ++ b (off + 2) ++ b (off + 1) ++ b off

/-- `buf[off..off + 4].copy_from_slice(&v.to_le_bytes())`. -/
def putU32 (b : Block) (off : Nat) (v : BitVec 32) : Block := fun i =>
  if off ≤ i ∧ i < off + 4 then leByte v (i - off) else b i

/-- `crc32`. -/
def crc32 (buf : List (BitVec 8)) : BitVec 32 :=
  ~~~buf.foldl (fun crc b => (List.range 8).foldl (fun crc _ =>
    if crc &&& 1#32 ≠ 0#32 then (crc >>> 1) ^^^ 0xEDB88320#32 else crc >>> 1) (crc ^^^ b.zeroExtend 32)) (~~~0#32)

/-- The checksum of the first three words of a header. -/
def headerCrc (magic n committed : BitVec 32) : BitVec 32 :=
  crc32 ([magic, n, committed].flatMap fun v => (List.range 4).map (leByte v))

/-! ## The device -/

/-- The block device. `left` is the number of writes until the power goes, if it does; a faulty device fails
every request. -/
structure Dev where
  disk : Nat → Block
  left : Option Nat := none
  faulty : Bool := false

/-- `OfsState`: `pending` lists the blocks of the transaction in ascending order. -/
structure Ofs where
  dev : Dev
  pending : List (Nat × Block) := []

namespace Ofs

/-- `read_block`. -/
def readBlock (blk : Nat) : Cmd Ofs (Option Block) := do
  let s ← Cmd.get
  pure (if s.dev.faulty then none else some (s.dev.disk blk))

/-- `write_block`. -/
def writeBlock (blk : Nat) (data : Block) : Cmd Ofs Bool := do
  let s ← Cmd.get
  if s.dev.faulty then pure false
  else
    match s.dev.left with
    | some 0 => Cmd.die "power cut"
    | left => do
      Cmd.modify fun s => { s with dev :=
        { s.dev with disk := Function.update s.dev.disk blk data, left := left.map (· - 1) } }
      pure true

/-- A loop of writes that returns at the first failure. -/
def writeAll : List (Nat × Block) → Cmd Ofs Bool
  | [] => pure true
  | (blk, data) :: ws => do
    if ← writeBlock blk data then writeAll ws else pure false

/-! ## Commit -/

/-- The journal slots with the data of the entries. -/
def slotWrites (entries : List (Nat × Block)) : List (Nat × Block) :=
  entries.zipIdx.map fun (e, i) => (journalDataBlk + i, e.2)

/-- The targets, in a header from word 4 on. -/
def putTargets (hdr : Block) (entries : List (Nat × Block)) : Block :=
  entries.zipIdx.foldl (fun hdr (e, i) => putU32 hdr (16 + i * 4) (BitVec.ofNat 32 e.1)) hdr

/-- The header of phase 2: not committed. -/
def prepared (entries : List (Nat × Block)) : Block :=
  let n := BitVec.ofNat 32 entries.length
  let hdr := putU32 zeroBlock 0 journalMagic
  let hdr := putU32 hdr 4 n
  let hdr := putU32 hdr 8 0#32
  let hdr := putU32 hdr 12 (headerCrc journalMagic n 0#32)
  putTargets hdr entries

/-- The header of phase 3. -/
def committed (entries : List (Nat × Block)) : Block :=
  let n := BitVec.ofNat 32 entries.length
  let hdr := putU32 (prepared entries) 8 1#32
  putU32 hdr 12 (headerCrc journalMagic n 1#32)

def clearHeader : Block := putU32 zeroBlock 0 journalMagic

/-- The five phases of `commit_txn`. -/
def commitPhases (entries : List (Nat × Block)) : Cmd Ofs Bool := do
  if ← writeAll (slotWrites entries) then
    if ← writeBlock journalHdrBlk (prepared entries) then
      if ← writeBlock journalHdrBlk (committed entries) then
        if ← writeAll entries then do
          let _ ← writeBlock journalHdrBlk clearHeader
          Cmd.modify fun s => { s with pending := [] }
          pure true
        else pure false
      else pure false
    else pure false
  else pure false

/-- `commit_txn`. -/
def commitTxn : Cmd Ofs Bool := do
  let s ← Cmd.get
  if s.pending.isEmpty then pure true
  else if journalSlots < s.pending.length then pure false
  else commitPhases s.pending

/-! ## Replay -/

/-- A header that `journal_replay` acts on, with the number of its entries. -/
def acceptHeader (hdr : Block) : Option Nat :=
  let magic := u32Le hdr 0
  let n := (u32Le hdr 4).toNat
  if magic ≠ journalMagic ∨ u32Le hdr 8 ≠ 1#32 ∨ n = 0 ∨ journalSlots < n then none
  else if headerCrc magic (BitVec.ofNat 32 n) 1#32 ≠ u32Le hdr 12 then none
  else some n

/-- One round of the loop of `journal_replay`. -/
def replayEntry (hdr : Block) (i : Nat) : Cmd Ofs Unit := do
  let target := (u32Le hdr (16 + i * 4)).toNat
  if target = 0 then pure ()
  else
    match ← readBlock (journalDataBlk + i) with
    | some data => do
      let _ ← writeBlock target data
      pure ()
    | none => pure ()

/-- `journal_replay`. -/
def journalReplay : Cmd Ofs Unit := do
  match ← readBlock journalHdrBlk with
  | none => pure ()
  | some hdr =>
    match acceptHeader hdr with
    | none => pure ()
    | some n => do
      Cmd.forEach (List.range n) (replayEntry hdr)
      let _ ← writeBlock journalHdrBlk clearHeader
      pure ()

end Ofs
end OpenV.Vfs
