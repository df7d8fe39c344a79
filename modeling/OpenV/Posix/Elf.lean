import OpenV.Kernel.Swap

/- The ELF loader (`src/posix/elf.rs`). The image is a list of bytes; a header
   field is a little-endian number at its offset. That the source reads headers
   through unaligned references is not modelled. -/
namespace OpenV

abbrev Bytes := List (BitVec 8)

/-- The little-endian number of `n` bytes at `off`. -/
def leNat (data : Bytes) (off : Nat) : Nat → Nat
  | 0 => 0
  | n + 1 => (data.getD off 0#8).toNat + 256 * leNat data (off + 1) n

def elfHeaderSize : Nat := 64
def programHeaderSize : Nat := 56

structure ProgramHeader where
  type : Nat
  flags : Nat
  offset : Nat
  vaddr : Nat
  filesz : Nat
  memsz : Nat
  deriving DecidableEq, Repr

def readProgramHeader (data : Bytes) (at_ : Nat) : ProgramHeader where
  type := leNat data at_ 4
  flags := leNat data (at_ + 4) 4
  offset := leNat data (at_ + 8) 8
  vaddr := leNat data (at_ + 16) 8
  filesz := leNat data (at_ + 32) 8
  memsz := leNat data (at_ + 40) 8

structure ElfLoadInfo where
  entry : Nat
  phdrVa : Nat
  phnum : Nat
  phentsize : Nat
  deriving DecidableEq, Repr

def ptLoad : Nat := 1
def pfX : Nat := 1
def pfW : Nat := 2
def pfR : Nat := 4

/-- The page flags of a segment. -/
def segmentFlags (phFlags : Nat) : Word :=
  pteU ||| (if phFlags &&& pfR ≠ 0 then pteR else 0#64) |||
    (if phFlags &&& pfW ≠ 0 then pteW else 0#64) ||| (if phFlags &&& pfX ≠ 0 then pteX else 0#64)

/-- The bytes of the page at `va` of a segment: file bytes where there are any, zero elsewhere. -/
def segmentPage (data : Bytes) (ph : ProgramHeader) (va : Nat) : Bytes :=
  let vaOffset := va - ph.vaddr
  let pageOffset := ph.vaddr - va
  let zeros := List.replicate 4096 0#8
  if vaOffset < ph.filesz then
    let copyLen := min (pageSize - pageOffset) (ph.filesz - vaOffset)
    let fileStart := ph.offset + vaOffset
    if fileStart + copyLen ≤ data.length then
      zeros.take pageOffset ++ (data.drop fileStart).take copyLen ++ zeros.drop (pageOffset + copyLen)
    else zeros
  else zeros

/-- A frame with the given content is mapped at `va`; on failure its guard is dropped. -/
def mapFresh (oom : String) (root va : Nat) (content : Nat → Word) (flags : Word) : Cmd Mm Unit := do
  let frame ← allocOr oom
  Cmd.modify (Mm.setFrame frame content)
  match ← Cmd.attempt (mapPage root va frame flags) with
  | .ok () => pure ()
  | .error e => do
    Cmd.modify (decrRefAndMaybeFree frame)
    Cmd.fail e

/-- How many pages a segment touches. -/
def segmentPages (ph : ProgramHeader) : Nat :=
  (ph.vaddr + ph.memsz - pageDown ph.vaddr + (pageSize - 1)) / pageSize

/-- The loop over the pages of a segment; the address after the last page may not overflow. -/
def loadPages (data : Bytes) (root : Nat) (ph : ProgramHeader) : Cmd Mm Unit :=
  Cmd.forEach (List.range (segmentPages ph)) fun i => do
    let va := pageDown ph.vaddr + i * pageSize
    mapFresh "Failed to alloc page for ELF" root va (pageOfBytes (segmentPage data ph va))
      (segmentFlags ph.flags)
    if usizeMax < va + pageSize then Cmd.die "attempt to add with overflow" else pure ()

/-- One round of the loop over the program headers. -/
def loadSegment (data : Bytes) (root : Nat) (ph : ProgramHeader) : Cmd Mm Unit := do
  if ph.type ≠ ptLoad then pure ()
  else if usizeMax < ph.vaddr + ph.memsz then Cmd.fail "integer overflow"
  else if 0 < ph.filesz ∧ usizeMax < ph.offset + ph.filesz then Cmd.fail "integer overflow"
  else if 0 < ph.filesz ∧ data.length < ph.offset + ph.filesz then
    Cmd.fail "segment data extends past end of file"
  else if ph.memsz = 0 then pure ()
  else loadPages data root ph

/-- The lowest loadable address so far and its file offset. -/
def firstLoad (ph : ProgramHeader) : Option (Nat × Nat) → Option (Nat × Nat)
  | some (va, off) => if ph.type = ptLoad ∧ ph.vaddr < va then some (ph.vaddr, ph.offset) else some (va, off)
  | none => if ph.type = ptLoad then some (ph.vaddr, ph.offset) else none

/-- The program headers, by the offset, number and size of the ELF header. -/
def programHeaders (data : Bytes) : List ProgramHeader :=
  (List.range (leNat data 56 2)).map fun i => readProgramHeader data (leNat data 32 8 + i * leNat data 54 2)

/-- `load_elf`. -/
def loadElf (data : Bytes) (root : Nat) : Cmd Mm ElfLoadInfo := do
  if data.length < elfHeaderSize then Cmd.fail "File too small"
  else if data.take 4 ≠ [0x7f#8, 0x45#8, 0x4c#8, 0x46#8] then Cmd.fail "Not an ELF file"
  else
    let phoff := leNat data 32 8
    let phnum := leNat data 56 2
    let phentsize := leNat data 54 2
    if phentsize < programHeaderSize then Cmd.fail "invalid program header entry size"
    else if usizeMax < phoff + phnum * phentsize then Cmd.fail "integer overflow"
    else if data.length < phoff + phnum * phentsize then
      Cmd.fail "program headers extend past end of file"
    else do
      Cmd.forEach (programHeaders data) (loadSegment data root)
      match (programHeaders data).foldl (fun acc ph => firstLoad ph acc) none with
      | none => Cmd.fail "no PT_LOAD segment found"
      | some (lva, loff) =>
        if usizeMax < lva + phoff then Cmd.die "attempt to add with overflow"
        else if lva + phoff < loff then Cmd.die "attempt to subtract with overflow"
        else pure { entry := leNat data 24 8, phdrVa := lva + phoff - loff, phnum, phentsize }

end OpenV
