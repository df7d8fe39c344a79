import OpenV.Lib.Cmd
import OpenV.Mm.Pte

/- The physical memory manager (`src/mm/pmm.rs`): a free list threaded through
   the free frames themselves, and a table of 16-bit reference counts.

   Physical memory is modelled frame by frame, `mem pa i` being the `i`-th
   64-bit word of the frame at `pa`; the kernel reaches it through its identity
   map, so a physical address is used directly. The functions are those of the
   development profile (the default of the build scripts): debug assertions and
   overflow checks are on, and a failed one stops the machine. -/
namespace OpenV

def pageSize : Nat := 4096
def maxPages : Nat := 524288
def poisonByte : BitVec 8 := 0xCD#8
/-- Eight poison bytes. -/
def poisonWord : Word := 0xCDCDCDCDCDCDCDCD#64

abbrev Mem := Nat → Nat → Word

/-- The memory state: physical memory, the allocator's statics, and the kernel
root entries that every new page table copies. -/
structure Mm where
  ramStart : Nat
  kernelRoot : Nat → Word
  head : Nat
  counts : Nat → Nat
  mem : Mem

/-- Byte `k` of a word. -/
def byteOf (w : Word) (k : Nat) : BitVec 8 := w.extractLsb' (8 * k) 8

namespace Mm

def setEntry (pt i : Nat) (w : Word) (s : Mm) : Mm :=
  { s with mem := fun p j => if p = pt ∧ j = i then w else s.mem p j }

def setFrame (pa : Nat) (c : Nat → Word) (s : Mm) : Mm :=
  { s with mem := fun p => if p = pa then c else s.mem p }

/-- `page_index`: the slot of a frame in the count table, `maxPages` when it has none. -/
def pageIndex (s : Mm) (pa : Nat) : Nat :=
  if pa < s.ramStart then maxPages
  else
    let idx := (pa - s.ramStart) / pageSize
    if idx < maxPages then idx else maxPages

def isManagedPage (s : Mm) (pa : Nat) : Bool :=
  decide (s.ramStart ≤ pa) && decide (pa < s.ramStart + maxPages * pageSize)

def setCount (idx n : Nat) (s : Mm) : Mm := { s with counts := Function.update s.counts idx n }

/-- The reference count of a frame. -/
def refs (s : Mm) (pa : Nat) : Nat := s.counts (s.pageIndex pa)

/-- What a freed frame holds: the old list head, then poison. -/
def freed (next : Nat) : Nat → Word := fun i => if i = 0 then BitVec.ofNat 64 next else poisonWord

/-- Put a frame in front of the free list. -/
def pushFree (page : Nat) (s : Mm) : Mm := { s.setFrame page (freed s.head) with head := page }

end Mm

/-- `alloc_frame`. The returned guard owns the frame until `into_raw` or `drop`. -/
def allocFrame : Cmd Mm (Option Nat) := do
  let s ← Cmd.get
  if s.head = 0 then pure none
  else do
    let page := s.head
    Cmd.modify fun s => { s with head := (s.mem page 0).toNat }
    if byteOf (s.mem page 1) 0 ≠ poisonByte then Cmd.die "free-list corruption"
    else do
      Cmd.modify (Mm.setFrame page fun _ => 0#64)
      let idx := s.pageIndex page
      if idx < maxPages then Cmd.modify (Mm.setCount idx 1)
      else pure ()
      pure (some page)

/-- `free_page`. -/
def freePage (page : Nat) : Cmd Mm Unit := do
  if page % pageSize ≠ 0 then Cmd.die "free_page: misaligned address"
  else do
    let s ← Cmd.get
    let idx := s.pageIndex page
    if maxPages ≤ idx then pure ()
    else if s.counts idx = 0 then Cmd.die "double-free of physical page"
    else Cmd.modify fun s => (s.setCount idx 0).pushFree page

/-- `incr_ref`: the 16-bit count saturates. -/
def incrRef (page : Nat) (s : Mm) : Mm :=
  let idx := s.pageIndex page
  if idx < maxPages then s.setCount idx (min (s.counts idx + 1) 65535) else s

/-- `decr_ref_and_maybe_free`, also what dropping a frame guard does. -/
def decrRefAndMaybeFree (page : Nat) (s : Mm) : Mm :=
  let idx := s.pageIndex page
  if maxPages ≤ idx ∨ s.isManagedPage page = false then s
  else if 1 < s.counts idx then s.setCount idx (s.counts idx - 1)
  else (s.setCount idx 0).pushFree page

end OpenV
