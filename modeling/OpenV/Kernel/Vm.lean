import OpenV.Kernel.Swap

/- Memory syscalls: memory objects (`src/mm/vmo.rs`, `src/syscall/vm.rs`),
   anonymous mappings (`src/syscall/proc.rs`) and physical mappings
   (`src/syscall/pm.rs`). A syscall's result is the value it leaves in `a0`. -/
namespace OpenV

/-! ## Memory objects -/

/-- `for p in pages { free_page(p) }`. -/
def freePages (pages : List Nat) : Cmd Kern Unit := Cmd.forEach pages fun p => Kern.onMm (freePage p)

/-- The loop of `Vmo::new`: `n` more pages after `pages`, or none at all. -/
def vmoPages : Nat → List Nat → Cmd Kern (Option (List Nat))
  | 0, pages => pure (some pages)
  | n + 1, pages => do
    match ← allocPage with
    | some page => vmoPages n (pages ++ [page])
    | none => do
      freePages pages
      pure none

/-- `size.div_ceil(4096)`. -/
def pageCount (size : Nat) : Nat := (size + 4095) / 4096

/-- `Vmo::new`. -/
def vmoNew (size : Nat) : Cmd Kern (Option Vmo) := do
  match ← vmoPages (pageCount size) [] with
  | some pages => pure (some ⟨size, pages⟩)
  | none => pure none

/-- The handle of a dropped `Arc`: the last one to go frees the pages. -/
def dropObject (obj : KernelObject) : Cmd Kern Unit := do
  match obj with
  | .vmo id =>
    let k ← Cmd.get
    if k.vmoHeld id then pure ()
    else
      match k.vmos id with
      | none => pure ()
      | some vmo => do
        Cmd.modify fun k => { k with vmos := Function.update k.vmos id none }
        freePages vmo.physicalPages
  | _ => pure ()

/-- `sys_vmo_create`. -/
def sysVmoCreate (size : Nat) : Cmd Kern Nat := do
  if size = 0 then pure EINVAL
  else
    let k ← Cmd.get
    match k.currentProc with
    | none => pure ESRCH
    | some p =>
      match ← vmoNew size with
      | none => pure ENOMEM
      | some vmo => do
        let k ← Cmd.get
        let id := k.nextVmo
        match p.fds.insertWithRights (.vmo id)
            (Rights.read ||| Rights.write ||| Rights.duplicate ||| Rights.transfer) with
        | none => Cmd.die "handle table full (65536 handles exhausted)"
        | some (handle, fds) => do
          Cmd.modify fun k => { k with vmos := Function.update k.vmos id (some vmo), nextVmo := id + 1 }
          Cmd.modify fun k => k.setCurrent { p with fds := fds }
          pure handle

/-- `x` rounded up to pages: `(x + page_size - 1) & !(page_size - 1)`. -/
def pageUp (x : Nat) : Nat := pageDown (x + (pageSize - 1))

/-- The page flags `sys_vmo_map` derives from its protection argument. -/
def protFlags (prot : Nat) : Word :=
  pteV ||| pteU ||| (if prot &&& 1 ≠ 0 ∨ prot = 0 then pteR else 0#64) |||
    (if prot &&& 2 ≠ 0 then pteW else 0#64) ||| (if prot &&& 4 ≠ 0 then pteX else 0#64)

/-- One round of the mapping loop: whether the page could be mapped. -/
def vmoMapPage (root va i pa : Nat) (flags : Word) : Cmd Kern Bool := do
  Kern.onMm (Cmd.modify (incrRef pa))
  if usizeMax < va + i * pageSize then Cmd.die "attempt to add with overflow"
  else
    match ← Cmd.attempt (Kern.onMm (mapPage root (va + i * pageSize) pa flags)) with
    | .ok () => pure true
    | .error _ => do
      Kern.onMm (Cmd.modify (decrRefAndMaybeFree pa))
      pure false

/-- The mapping loop from page number `i` on; it stops at the first failure. -/
def vmoMapLoop (root va : Nat) (flags : Word) : Nat → List Nat → Cmd Kern Bool
  | _, [] => pure true
  | i, pa :: rest => do
    if ← vmoMapPage root va i pa flags then vmoMapLoop root va flags (i + 1) rest else pure false

/-- The address `sys_vmo_map` maps at, and what becomes of `next_mmap_va`. -/
def vmoMapVa (p : Process) (vaHint aligned : Nat) : Nat × Process :=
  if vaHint ≠ 0 ∧ 0x100000000 ≤ vaHint then (vaHint, p)
  else (p.nextMmapVa, { p with nextMmapVa := (p.nextMmapVa + aligned) % 2 ^ 64 })

/-- `sys_vmo_map`. -/
def sysVmoMap (handle vaHint mapSize prot : Nat) : Cmd Kern Nat := do
  if mapSize = 0 then pure EINVAL
  else
    let k ← Cmd.get
    match k.currentProc with
    | none => pure ESRCH
    | some p =>
      match p.fds.get (handle % 2 ^ 32) with
      | some (.vmo id) =>
        if usizeMax < mapSize + pageSize then Cmd.die "attempt to add with overflow"
        else do
          let aligned := pageUp mapSize
          let (va, p') := vmoMapVa p vaHint aligned
          Cmd.modify fun k => k.setCurrent p'
          match k.vmos id with
          | none => pure EBADF
          | some vmo => do
            let mapPages := min (aligned / pageSize) vmo.physicalPages.length
            if ← vmoMapLoop p.root va (protFlags prot) 0 (vmo.physicalPages.take mapPages) then
              pure va
            else pure ENOMEM
      | _ => pure EBADF

/-- `sys_vmo_unmap` and `sys_munmap` from the length check on, for at most `n` rounds of
`unmap_range`. -/
def sysUnmap (n va size : Nat) : Cmd Kern Nat := do
  if size = 0 then pure 0
  else
    let k ← Cmd.get
    match k.currentProc with
    | none => pure ESRCH
    | some p =>
      if usizeMax < size + pageSize then Cmd.die "attempt to add with overflow"
      else do
        let _ ← Kern.onMm (unmapRange n p.root va (pageUp size))
        pure 0

/-- `sys_vmo_unmap`. -/
def sysVmoUnmap (n va size : Nat) : Cmd Kern Nat := sysUnmap n va size

/-- `sys_munmap`. -/
def sysMunmap (n addr len : Nat) : Cmd Kern Nat := sysUnmap n addr len

/-- `sys_handle_close`. -/
def sysHandleClose (handle : Nat) : Cmd Kern Nat := do
  let k ← Cmd.get
  match k.currentProc with
  | none => pure ESRCH
  | some p => do
    let (obj, fds) := p.fds.remove (handle % 2 ^ 32)
    Cmd.modify fun k => k.setCurrent { p with fds := fds }
    match obj with
    | some obj => do
      dropObject obj
      pure 0
    | none => pure EBADF

/-! ## Anonymous and physical mappings -/

def mapAnonymous : Nat := 0x20

/-- `sys_mmap`: only an address range is handed out. `fd` is the descriptor argument. -/
def sysMmap (hint len flags : Nat) (fd : Int) : Cmd Kern Nat := do
  if flags &&& mapAnonymous = 0 ∧ fd ≠ -1 then pure EINVAL
  else if len = 0 then pure EINVAL
  else if usizeMax < len + pageSize then Cmd.die "attempt to add with overflow"
  else
    let k ← Cmd.get
    match k.currentProc with
    | none => pure ESRCH
    | some p => do
      Cmd.modify fun k => k.setCurrent { p with nextMmapVa := (p.nextMmapVa + pageUp len) % 2 ^ 64 }
      pure (if hint ≠ 0 ∧ 0x400000000 ≤ hint then hint else p.nextMmapVa)

/-- The mapping loop of `sys_phys_map` from page `i` on, `n` pages; whether all were mapped. -/
def physMapLoop (root va pa : Nat) : Nat → Nat → Cmd Kern Bool
  | _, 0 => pure true
  | i, n + 1 => do
    if usizeMax < va + i * pageSize ∨ usizeMax < pa + i * pageSize then
      Cmd.die "attempt to add with overflow"
    else
      match ← Cmd.attempt (Kern.onMm (mapPage root (va + i * pageSize) (pa + i * pageSize)
          (pteR ||| pteW ||| pteU))) with
      | .ok () => physMapLoop root va pa (i + 1) n
      | .error _ => pure false

/-- `sys_phys_map`. -/
def sysPhysMap (va pa len : Nat) : Cmd Kern Nat := do
  let k ← Cmd.get
  match k.currentProc with
  | none => pure ESRCH
  | some p =>
    if p.caps &&& (capMmio ||| capDriver) = 0#64 then pure EPERM
    else if va % 4096 ≠ 0 ∨ pa % 4096 ≠ 0 ∨ len % 4096 ≠ 0 then pure usizeMax
    else do
      if ← physMapLoop p.root va pa 0 (len / pageSize) then pure va else pure usizeMax

end OpenV
