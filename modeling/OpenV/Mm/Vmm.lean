import OpenV.Mm.Pmm

/- The virtual memory manager (`src/mm/vmm.rs`): the three-level page table, how
   pages are mapped, looked up and unmapped, and how address spaces are cloned
   copy-on-write and destroyed.

   Level 2 is the root, level 0 holds the leaf entries. A loop over the entries
   of a table is a `forEach` over their indices; the recursion over the levels
   is structural. -/
namespace OpenV

/-- The page-table index of a virtual address at a level. -/
def vpn (va level : Nat) : Nat := (va >>> (12 + 9 * level)) &&& 0x1FF

/-- The result of `alloc_frame().ok_or(e)?`. -/
def allocOr (e : String) : Cmd Mm Nat := do
  match ← allocFrame with
  | some page => pure page
  | none => Cmd.fail e

/-- `PageTable::new_process_table`. -/
def newProcessTable : Cmd Mm Nat := do
  let root ← allocOr "Out of memory"
  Cmd.forEach (List.range 4) fun i =>
    Cmd.modify fun s => s.setEntry root i (s.kernelRoot i)
  pure root

/-! ## Mapping and looking up -/

/-- One round of the loop of `map_page`: the table that `pt` points to at `level`,
created if it is missing. -/
def mapPageStep (pt va level : Nat) : Cmd Mm Nat := do
  let idx := vpn va level
  let s ← Cmd.get
  if has (s.mem pt idx) pteV = false then do
    let newPage ← allocOr "Out of memory mapping page"
    Cmd.modify (Mm.setEntry pt idx (tablePte newPage))
  else pure ()
  let s ← Cmd.get
  let entry := s.mem pt idx
  if has entry (pteR ||| pteW ||| pteX) then
    Cmd.fail "map_page: intermediate PTE is already a leaf (megapage conflict)"
  else pure (ptePa entry)

/-- `PageTable::map_page`. -/
def mapPage (root va pa : Nat) (flags : Word) : Cmd Mm Unit := do
  let l1 ← mapPageStep root va 2
  let l0 ← mapPageStep l1 va 1
  let s ← Cmd.get
  if has (s.mem l0 (vpn va 0)) pteV then Cmd.fail "Page already mapped"
  else Cmd.modify (Mm.setEntry l0 (vpn va 0) (mkPte pa (pteV ||| flags)))

/-- One round of a walk that only reads: the table below `pt`, or the error of a missing
entry (`unmapped`) or of a leaf (`huge`). -/
def walkStep (s : Mm) (unmapped huge : String) (pt va level : Nat) : Except String Nat :=
  let entry := s.mem pt (vpn va level)
  if has entry pteV = false then .error unmapped
  else if isLeaf entry then .error huge
  else .ok (ptePa entry)

/-- The level-0 table of `va`, as the walks of `walk_page_table` and
`handle_store_page_fault` find it. -/
def walkTo (s : Mm) (unmapped huge : String) (root va : Nat) : Except String Nat := do
  let l1 ← walkStep s unmapped huge root va 2
  walkStep s unmapped huge l1 va 1

/-- `PageTable::walk_page_table`: physical address and flags of `va`. -/
def walkPageTable (s : Mm) (root va : Nat) : Except String (Nat × Word) := do
  let l0 ← walkTo s "unmapped" "huge pages not supported" root va
  let entry := s.mem l0 (vpn va 0)
  if has entry pteV = false then .error "unmapped"
  else .ok (ptePa entry ||| (va &&& 0xFFF), pteFlags entry)

/-! ## Copy-on-write clone -/

/-- The indices `clone_level` visits: the root's first four are the kernel's. -/
def cloneRange (level : Nat) : List Nat := if level = 2 then List.range' 4 508 else List.range 512

/-- What `clone_level` does with a leaf entry `entry` of the parent at `idx`. -/
def cloneLeaf (parent child idx : Nat) (entry : Word) : Cmd Mm Unit := do
  let s ← Cmd.get
  let pa := ptePa entry
  let flags := pteFlags entry
  if has flags pteU && s.isManagedPage pa then do
    let newFlags := if has flags pteW then (flags &&& ~~~pteW) ||| pteCow else flags
    if has flags pteW then
      Cmd.modify (Mm.setEntry parent idx (mkPte pa ((newFlags &&& flagMask) ||| pteV)))
    else pure ()
    Cmd.modify (incrRef pa)
    Cmd.modify (Mm.setEntry child idx (mkPte pa ((newFlags &&& flagMask) ||| pteV)))
  else
    -- kernel pages and unmanaged (device) pages are copied as they are
    Cmd.modify (Mm.setEntry child idx (mkPte pa ((flags &&& flagMask) ||| pteV)))

/-- The body of the loop of `clone_level`; `below` is the recursive call. -/
def cloneEntry (below : Nat → Nat → Cmd Mm Unit) (parent child idx : Nat) : Cmd Mm Unit := do
  let s ← Cmd.get
  let entry := s.mem parent idx
  if entry = 0#64 then Cmd.modify (Mm.setEntry child idx 0#64)
  else if isLeaf entry = false then do
    let newPage ← allocOr "OOM cloning page table"
    Cmd.modify (Mm.setEntry child idx (tablePte newPage))
    below (ptePa entry) newPage
  else cloneLeaf parent child idx entry

/-- `clone_level`. At level 0 the recursive call computes `level - 1`, which overflows. -/
def cloneLevel : Nat → Nat → Nat → Cmd Mm Unit
  | 0, parent, child =>
    Cmd.forEach (cloneRange 0)
      (cloneEntry (fun _ _ => Cmd.die "attempt to subtract with overflow") parent child)
  | level + 1, parent, child =>
    Cmd.forEach (cloneRange (level + 1)) (cloneEntry (cloneLevel level) parent child)

/-- `clone_user_space`. -/
def cloneUserSpace (parentRoot childRoot : Nat) : Cmd Mm Unit := cloneLevel 2 parentRoot childRoot

/-! ## Store faults -/

/-- The flags of an entry once its private copy is made. -/
def uncowFlags (flags : Word) : Word := ((flags &&& ~~~pteCow) ||| pteW) &&& flagMask ||| pteV

/-- `handle_store_page_fault`. -/
def handleStorePageFault (root va : Nat) : Cmd Mm Unit := do
  let s ← Cmd.get
  match walkTo s "no mapping at level" "huge page (1GB/2MB) not supported for COW" root va with
  | .error e => Cmd.fail e
  | .ok l0 =>
    let entry := s.mem l0 (vpn va 0)
    if has entry pteV = false then Cmd.fail "no mapping for faulting VA"
    else
      let pa := ptePa entry
      let flags := pteFlags entry
      if has flags pteCow then
        if s.isManagedPage pa = false then
          Cmd.fail "Cannot COW an unmanaged physical page (e.g., MMIO)"
        else do
          let newPa ← allocOr "OOM in COW"
          Cmd.modify fun s => s.setFrame newPa (s.mem pa)
          Cmd.modify (Mm.setEntry l0 (vpn va 0) (mkPte newPa (uncowFlags flags)))
          Cmd.modify (decrRefAndMaybeFree pa)
      else Cmd.fail "write to read-only page (not COW)"

/-! ## Destroying an address space -/

/-- A leaf entry goes: the page of a user leaf loses a reference, the slot is cleared. -/
def dropLeaf (pt idx : Nat) (entry : Word) : Cmd Mm Unit := do
  if has (pteFlags entry) pteU then Cmd.modify (decrRefAndMaybeFree (ptePa entry)) else pure ()
  Cmd.modify (Mm.setEntry pt idx 0#64)

/-- The body of the loop of `destroy_level`; `below` is the recursive call. -/
def destroyEntry (below : Nat → Cmd Mm Unit) (pt idx : Nat) : Cmd Mm Unit := do
  let s ← Cmd.get
  let entry := s.mem pt idx
  if entry = 0#64 then pure ()
  else if isLeaf entry then dropLeaf pt idx entry
  else do
    below (ptePa entry)
    freePage (ptePa entry)
    Cmd.modify (Mm.setEntry pt idx 0#64)

/-- `destroy_level`: at level 0 a non-leaf is freed without looking inside. -/
def destroyLevel : Nat → Nat → Cmd Mm Unit
  | 0, pt => Cmd.forEach (List.range 512) (destroyEntry (fun _ => pure ()) pt)
  | level + 1, pt => Cmd.forEach (List.range 512) (destroyEntry (destroyLevel level) pt)

/-- `destroy_user_space`. -/
def destroyUserSpace (root : Nat) : Cmd Mm Unit := do
  Cmd.forEach (List.range 512) fun i =>
    -- indices 0-3 are the kernel identity map
    if i < 4 then pure () else destroyEntry (destroyLevel 1) root i
  freePage root

/-! ## Unmapping a range -/

def usizeMax : Nat := 2 ^ 64 - 1

def saturatingAdd (a b : Nat) : Nat := min (a + b) usizeMax

/-- `va & !(PAGE_SIZE - 1)`. -/
def pageDown (va : Nat) : Nat := va - va % pageSize

/-- One round of the loop of `unmap_range`: the address the next round starts from. -/
def unmapStep (root va : Nat) : Cmd Mm Nat := do
  let s ← Cmd.get
  let l2e := s.mem root (vpn va 2)
  if has l2e pteV = false ∨ isLeaf l2e then pure (pageDown (saturatingAdd va (1 <<< 30)))
  else
    let l1e := s.mem (ptePa l2e) (vpn va 1)
    if has l1e pteV = false ∨ isLeaf l1e then pure (pageDown (saturatingAdd va (1 <<< 21)))
    else do
      let l0 := ptePa l1e
      let l0e := s.mem l0 (vpn va 0)
      if has l0e pteV then dropLeaf l0 (vpn va 0) l0e else pure ()
      if usizeMax < va + pageSize then Cmd.die "attempt to add with overflow"
      else pure (va + pageSize)

/-- The first `n` rounds of `while va < end`: whether the loop has ended by then. -/
def unmapLoop (root endVa : Nat) : Nat → Nat → Cmd Mm Bool
  | 0, va => pure (decide (endVa ≤ va))
  | n + 1, va => if va < endVa then do unmapLoop root endVa n (← unmapStep root va) else pure true

/-- `unmap_range`, run for at most `n` rounds. -/
def unmapRange (n root vaStart len : Nat) : Cmd Mm Bool :=
  unmapLoop root (saturatingAdd vaStart len) n (pageDown vaStart)

/-! ## Pointers from user space -/

/-- `is_user_pointer_valid`, for `count` elements of `size` bytes: a range check, no look at the page table. -/
def isUserPointerValid (size ptr count : Nat) : Bool :=
  ptr ≠ 0 && decide (0x100000000 ≤ ptr) &&
    decide (saturatingAdd ptr (min (size * count) usizeMax) ≤ 0x800000000000)

end OpenV
