import OpenV.Kernel.State

/- Compressed swap (`src/mm/swap.rs`): a page of a stopped process is compressed
   into the swap map and its frame given up; a later fault brings it back. -/
namespace OpenV

/-- The bytes of a frame. -/
def pageBytes (c : Nat → Word) : List (BitVec 8) :=
  (List.range 4096).map fun i => byteOf (c (i / 8)) (i % 8)

/-- The frame whose bytes are given, zero beyond them. -/
def pageOfBytes (bytes : List (BitVec 8)) : Nat → Word := fun j =>
  (List.range 8).foldr (fun i w => (w <<< 8) ||| (bytes.getD (8 * j + i) 0#8).setWidth 64) 0#64

/-- The rounds of the loop of `compress_page`, at most `n`. -/
def compressLoop : Nat → List (BitVec 8) → List (BitVec 8)
  | 0, _ => []
  | _, [] => []
  | n + 1, b :: rest =>
    let more := ((rest.take 254).takeWhile (· == b)).length
    b :: BitVec.ofNat 8 (more + 1) :: compressLoop n (rest.drop more)

/-- `compress_page`. -/
def compressPage (src : List (BitVec 8)) : List (BitVec 8) := compressLoop src.length src

/-- The loop of `decompress_page`, with `out_pos` bytes written. -/
def decompressLoop : List (BitVec 8) → Nat → List (BitVec 8) → List (BitVec 8)
  | b :: run :: rest, outPos, dst =>
    if outPos < 4096 then
      let stop := min (outPos + run.toNat) 4096
      decompressLoop rest stop (dst.take outPos ++ List.replicate (stop - outPos) b ++ dst.drop stop)
    else dst
  | _, _, dst => dst

/-- `decompress_page`. -/
def decompressPage (src dst : List (BitVec 8)) : List (BitVec 8) := decompressLoop src 0 dst

/-- The table an entry points to, as the walks that skip leaves and invalid entries see it. -/
def nextTable (s : Mm) (pt i : Nat) : Option Nat :=
  let entry := s.mem pt i
  if has entry pteV = false ∨ isLeaf entry then none else some (ptePa entry)

/-- The first page of the space of `root` that `try_evict_page` can take: its level-0 table and
the three indices, outermost first. -/
def findEvictable (s : Mm) (root : Nat) : Option (Nat × Nat × Nat × Nat) :=
  (List.range' 4 508).findSome? fun l2i =>
    (nextTable s root l2i).bind fun l1 =>
      (List.range 512).findSome? fun l1i =>
        (nextTable s l1 l1i).bind fun l0 =>
          (List.range 512).findSome? fun l0i =>
            let pte := s.mem l0 l0i
            if has pte pteV && has pte pteU && s.isManagedPage (ptePa pte) then
              some (l0, l2i, l1i, l0i)
            else none

def putSwap (root pageVa : Nat) (page : SwappedPage) (k : Kern) : Kern :=
  { k with swapMap := fun r v => if r = root ∧ v = pageVa then some page else k.swapMap r v }

def dropSwap (root pageVa : Nat) (k : Kern) : Kern :=
  { k with swapMap := fun r v => if r = root ∧ v = pageVa then none else k.swapMap r v }

/-- What `try_evict_page` does with the page it has found. -/
def evictPage (root l0 l2i l1i l0i : Nat) : Cmd Kern Unit := do
  let k ← Cmd.get
  let pte := k.mm.mem l0 l0i
  let va := (l2i <<< 30) ||| (l1i <<< 21) ||| (l0i <<< 12)
  let page : SwappedPage := ⟨compressPage (pageBytes (k.mm.mem (ptePa pte))), pteFlags pte⟩
  Cmd.modify (putSwap root va page)
  Kern.onMm (Cmd.modify (Mm.setEntry l0 l0i 0#64))
  Kern.onMm (Cmd.modify (decrRefAndMaybeFree (ptePa pte)))

/-- The first stopped process of `pids` with a page to take, and the page. -/
def findVictim (k : Kern) (pids : List Nat) : Option (Nat × Nat × Nat × Nat × Nat) :=
  pids.findSome? fun pid =>
    match k.procs pid with
    | some p =>
      if p.state = .stopped ∧ p.root ≠ 0 then (findEvictable k.mm p.root).map fun v => (p.root, v)
      else none
    | none => none

/-- `try_evict_page`. -/
def tryEvictPage : Cmd Kern Bool := do
  let k ← Cmd.get
  match findVictim k k.pids with
  | some (root, l0, l2i, l1i, l0i) => do
    evictPage root l0 l2i l1i l0i
    pure true
  | none => pure false

/-- `alloc_page`: a frame, if need be after one eviction. -/
def allocPage : Cmd Kern (Option Nat) := do
  match ← Kern.onMm allocFrame with
  | some page => pure (some page)
  | none => if ← tryEvictPage then Kern.onMm allocFrame else pure none

/-- `swap_in`. The entry leaves the map before anything can fail. -/
def swapIn (root pageVa : Nat) : Cmd Kern Unit := do
  let k ← Cmd.get
  match k.swapMap root pageVa with
  | none => Cmd.fail "swap entry not found"
  | some swapped => do
    Cmd.modify (dropSwap root pageVa)
    let frame ← Kern.onMm (allocOr "OOM during swap-in")
    Kern.onMm (Cmd.modify fun s =>
      s.setFrame frame (pageOfBytes (decompressPage swapped.data (pageBytes (s.mem frame)))))
    match ← Cmd.attempt (Kern.onMm (mapPage root pageVa frame swapped.flags)) with
    | .ok () => pure ()
    | .error e => do
      -- the guard of the frame is dropped
      Kern.onMm (Cmd.modify (decrRefAndMaybeFree frame))
      Cmd.fail e

/-- `evict_all`. -/
def evictAll (root : Nat) (k : Kern) : Kern :=
  { k with swapMap := fun r v => if r = root then none else k.swapMap r v }

end OpenV
