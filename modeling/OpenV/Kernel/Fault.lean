import OpenV.Kernel.Swap

/- Page faults (`handle_user_page_fault` of `src/mm/vmm.rs`, and
   `src/trap/page_fault.rs`). -/
namespace OpenV

/-- The flags of a page mapped on demand. -/
def demandFlags (extra : Word) : Word :=
  let raw := pteR ||| pteU ||| extra
  let wantsW := !has extra pteW
  let wantsX := has extra pteX
  raw ||| (if wantsX then pteX else 0#64) ||| (if wantsW && !wantsX then pteW else 0#64)

/-- The current process, if there is one, is charged for a page. -/
def chargePage (k : Kern) : Kern :=
  match k.currentProc with
  | some p => (allocMemory p.job pageSize k).setCurrent
      { p with allocatedPages := (p.allocatedPages + 1) % 2 ^ 64 }
  | none => k

/-- A fresh zero page is mapped at `pageVa`. That `map_page` fails is not reported. -/
def demandPage (root pageVa : Nat) (extra : Word) : Cmd Kern Unit := do
  let k ← Cmd.get
  if (k.currentProc.all fun p => checkMemoryLimit k p.job pageSize) = false then
    Cmd.fail "Memory limit exceeded for Job"
  else do
    let frame ← Kern.onMm (allocOr "OOM in demand paging")
    match ← Cmd.attempt (Kern.onMm (mapPage root pageVa frame (demandFlags extra))) with
    | .ok () => Cmd.modify chargePage
    | .error _ => Kern.onMm (Cmd.modify (decrRefAndMaybeFree frame))

/-- `handle_user_page_fault`. -/
def handleUserPageFault (root faultVa : Nat) (extra : Word) : Cmd Kern Unit := do
  if 0x800000000000 ≤ faultVa then Cmd.fail "kernel-space fault"
  else if faultVa < 0x100000000 then Cmd.fail "address in kernel identity map region"
  else do
    let pageVa := pageDown faultVa
    let k ← Cmd.get
    if (k.swapMap root pageVa).isSome then swapIn root pageVa
    else demandPage root pageVa extra

/-- The page faults of the hardware: causes 12, 13 and 15. -/
inductive FaultCause where
  | instruction
  | load
  | store
  deriving DecidableEq, Repr

/-- `handle_page_fault` up to its decision: `Ok` returns to the faulting instruction, an error
ends the process. -/
def handlePageFault (root : Nat) (cause : FaultCause) (stval : Nat) : Cmd Kern Unit :=
  match cause with
  | .instruction => handleUserPageFault root stval pteX
  | .load => handleUserPageFault root stval 0#64
  | .store => do
    match ← Cmd.attempt (Kern.onMm (handleStorePageFault root stval)) with
    | .ok () => pure ()
    | .error _ => handleUserPageFault root stval 0#64

end OpenV
