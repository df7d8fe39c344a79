import OpenV.Kernel.System

/- The machine after `vmm::init`, as `setup_kernel_memory_protection` leaves it for
   a small kernel: the first gigabyte is mapped in megapages except that page 0
   stays unmapped, the second gigabyte of RAM in megapages except for the two
   megabytes of the kernel image, where one page guards the stack. The other
   frames are free. -/
namespace OpenV

open List

def bootRam : Nat := 0x80000000
/-- The kernel's root table, and the tables below it. -/
def bootRoot : Nat := 0x80200000
def bootLow1 : Nat := 0x80201000
def bootLow0 : Nat := 0x80202000
def bootRam1 : Nat := 0x80203000
def bootRam0 : Nat := 0x80204000
/-- The index of the stack guard page, and of the end of the kernel's text. -/
def bootGuard : Nat := 100
def bootText : Nat := 40

def bootFrame (i : Nat) : Nat := 0x80205000 + i * pageSize

def bootKernelRoot (i : Nat) : Word :=
  if i = 0 then tablePte bootLow1 else if i = 2 then tablePte bootRam1 else 0#64

def kernelRw : Word := pteV ||| pteR ||| pteW
def kernelRx : Word := pteV ||| pteR ||| pteX

/-- The words of the kernel's tables. -/
def bootTable (pa i : Nat) : Word :=
  if pa = bootRoot then bootKernelRoot i
  else if pa = bootLow1 then if i = 0 then tablePte bootLow0 else mkPte (i * 0x200000) kernelRw
  else if pa = bootLow0 then if i = 0 then 0#64 else mkPte (i * pageSize) kernelRw
  else if pa = bootRam1 then if i = 1 then tablePte bootRam0 else mkPte (bootRam + i * 0x200000) kernelRw
  else if i = bootGuard then 0#64
  else mkPte (bootRoot + i * pageSize) (if i < bootText then kernelRx else kernelRw)

/-- Physical memory with `n` free frames. -/
def bootMem (n : Nat) : Mem := fun pa i =>
  if pa < bootFrame 0 then bootTable pa i
  else Mm.freed (if pa + pageSize < bootFrame n then pa + pageSize else 0) i

def bootMm (n : Nat) : Mm where
  ramStart := bootRam
  kernelRoot := bootKernelRoot
  head := if n = 0 then 0 else bootFrame 0
  counts := fun i => if 0x200 ≤ i ∧ i < 0x205 then 1 else 0
  mem := bootMem n

/-- No process yet. -/
def booted (n : Nat) : Kern where
  mm := bootMm n
  swapMap := fun _ _ => none
  jobs := fun _ => {}
  procs := fun _ => none
  nextPid := 1
  currentPid := 0
  vmos := fun _ => none
  nextVmo := 0
  satpRefcount := fun _ => none

/-! ## The invariant -/

def kernelTables : List Nat := [bootLow1, bootLow0, bootRam1, bootRam0]

def bootGhost (n : Nat) : Ghost where
  pool := (bootRoot :: kernelTables ++ (range n).map bootFrame).toFinset
  role := fun f =>
    if f = bootRoot then .tab 2 none
    else if f = bootLow1 then .tab 1 none
    else if f = bootLow0 then .tab 0 (some (bootLow1, 0))
    else if f = bootRam1 then .tab 1 none
    else if f = bootRam0 then .tab 0 (some (bootRam1, 1))
    else if f ∈ (range n).map bootFrame then .free else .other
  ext := fun _ => 0
  free := (range n).map bootFrame

/-- What a policy has to say of the kernel's tables for the machine to meet it. -/
structure Policy.Boots (p : Policy) (n : Nat) : Prop where
  rw : p.leafOk kernelRw
  rx : p.leafOk kernelRx
  kern : (∀ t, p.kern t ↔ t ∈ kernelTables) ∨ ¬p.strict ∧ ∀ t, ¬p.kern t
  frozen : ∀ t, p.frozen t → p.kern t ∧ ∀ i, bootMem n t i = p.image t i
  entries : p.strict → bootKernelRoot = p.entries

section Boot
variable {p : Policy} {n f : Nat}

theorem bootGhost_role (hf : f ∉ bootRoot :: kernelTables) :
    (bootGhost n).role f = if f ∈ (range n).map bootFrame then .free else .other := by
  simp only [mem_cons, kernelTables, not_or] at hf
  simp [bootGhost, hf]

variable {i t : Nat} {up : Option (Nat × Nat)}

theorem bootGhost_tab {k : Nat} (h : (bootGhost n).role f = .tab k up) :
    f = bootRoot ∧ k = 2 ∧ up = none ∨ f = bootLow1 ∧ k = 1 ∧ up = none ∨
      f = bootLow0 ∧ k = 0 ∧ up = some (bootLow1, 0) ∨ f = bootRam1 ∧ k = 1 ∧ up = none ∨
      f = bootRam0 ∧ k = 0 ∧ up = some (bootRam1, 1) := by
  simp only [bootGhost] at h
  split_ifs at h <;> cases h <;> simp_all

theorem bootFrame_ne : bootFrame i ∉ bootRoot :: kernelTables := by
  simp only [kernelTables, bootFrame, bootRoot, bootLow1, bootLow0, bootRam1, bootRam0,
    mem_cons, not_mem_nil, or_false]
  omega

theorem bootGhost_free : (bootGhost n).role f = .free ↔ f ∈ (range n).map bootFrame := by
  by_cases hf : f ∈ bootRoot :: kernelTables
  · refine ⟨fun h => ?_, fun h => ?_⟩
    · simp only [mem_cons, kernelTables, not_mem_nil, or_false] at hf
      rcases hf with rfl | rfl | rfl | rfl | rfl <;> simp [bootGhost, bootRoot, bootLow1, bootLow0, bootRam1, bootRam0] at h
    · obtain ⟨i, -, rfl⟩ := mem_map.mp h
      exact absurd hf bootFrame_ne
  · rw [bootGhost_role hf]
    split
    · rename_i h
      exact ⟨fun _ => h, fun _ => rfl⟩
    · rename_i h
      exact ⟨fun e => (by cases e), fun h' => absurd h' h⟩

theorem bootFrame_next (hi : i < n) (hn : n ≤ 500000) :
    (bootMem n (bootFrame i) 0).toNat = if i + 1 = n then 0 else bootFrame (i + 1) := by
  have h1 : ¬bootFrame i < bootFrame 0 := by simp only [bootFrame]; omega
  have h3 : bootFrame i + pageSize = bootFrame (i + 1) := by simp only [bootFrame, pageSize]; omega
  have h4 : bootFrame (i + 1) < 2 ^ 64 := by simp only [bootFrame, pageSize]; omega
  simp only [bootMem, h1, if_false, Mm.freed, if_true, h3, BitVec.toNat_ofNat]
  by_cases e : i + 1 = n
  · rw [if_pos e, e, if_neg (Nat.lt_irrefl _)]
  · have h2 : bootFrame (i + 1) < bootFrame n := by simp only [bootFrame, pageSize]; omega
    rw [if_neg e, if_pos h2, Nat.mod_eq_of_lt h4]

theorem boot_linked (hn : n ≤ 500000) : ∀ m i, i + m = n →
    Linked (fun f => (bootMem n f 0).toNat) (if m = 0 then 0 else bootFrame i) ((range' i m).map bootFrame)
  | 0, i, _ => rfl
  | m + 1, i, hm => by
    refine ⟨if_neg (Nat.succ_ne_zero m), ?_, ?_⟩
    · simp only [bootFrame]
      omega
    · have hnext := bootFrame_next (i := i) (by omega) hn
      have hrest := boot_linked hn m (i + 1) (by omega)
      have e : (i + 1 = n) = (m = 0) := by
        rw [eq_iff_iff]
        omega
      dsimp only
      rw [hnext]
      simpa only [e] using hrest

theorem boot_pool (hn : n ≤ 500000) : PoolOk (bootMm n) (bootGhost n) where
  frame f hf := by
    have hmem : f ∈ bootRoot :: kernelTables ∨ f ∈ (range n).map bootFrame := by
      simpa [bootGhost, or_assoc] using hf
    rcases hmem with hf | hf
    · simp only [mem_cons, kernelTables, not_mem_nil, or_false] at hf
      rcases hf with rfl | rfl | rfl | rfl | rfl <;> 
        exact ⟨by decide, by decide, show bootRam ≤ _ by decide, show _ < bootRam + maxPages * pageSize by decide,
          by decide⟩
    · obtain ⟨i, hi, rfl⟩ := mem_map.mp hf
      rw [mem_range] at hi
      refine ⟨?_, ?_, ?_, ?_, ?_⟩ <;> simp only [bootFrame, bootMm, bootRam, maxPages, pageSize] <;> omega
  pool f := by
    by_cases hf : f ∈ bootRoot :: kernelTables
    · refine ⟨fun _ => ?_, fun _ => ?_⟩
      · simp only [mem_cons, kernelTables, not_mem_nil, or_false] at hf
        rcases hf with rfl | rfl | rfl | rfl | rfl <;>
          simp [bootGhost, bootRoot, bootLow1, bootLow0, bootRam1, bootRam0]
      · exact mem_toFinset.mpr (mem_append_left _ hf)
    · rw [bootGhost_role hf]
      simp only [bootGhost]
      split <;> simp_all
  linked := by
    have := boot_linked hn n 0 (by omega)
    rw [← range_eq_range'] at this
    exact this
  nodup := (nodup_map_iff fun i j h => by simp only [bootFrame, pageSize] at h; omega).mpr nodup_range
  mem_free f := bootGhost_free.symm
  poison f hf := by
    obtain ⟨i, -, rfl⟩ := mem_map.mp hf
    have h1 : ¬bootFrame i < bootFrame 0 := by simp only [bootFrame]; omega
    simp only [bootMm, bootMem, h1, if_false, Mm.freed, Nat.one_ne_zero]
    decide

theorem bootMem_table (ht : t ∈ bootRoot :: kernelTables) (i : Nat) : bootMem n t i = bootTable t i := by
  refine if_pos ?_
  simp only [mem_cons, kernelTables, not_mem_nil, or_false] at ht
  rcases ht with rfl | rfl | rfl | rfl | rfl <;> decide

theorem bootMem_root (n i : Nat) : bootMem n bootRoot i = bootKernelRoot i :=
  (bootMem_table (.head _) i).trans (if_pos rfl)

theorem bootMem_low1 (n i : Nat) :
    bootMem n bootLow1 i = if i = 0 then tablePte bootLow0 else mkPte (i * 0x200000) kernelRw := by
  rw [bootMem_table (by decide), bootTable, if_neg (by decide), if_pos rfl]

theorem bootMem_low0 (n i : Nat) : bootMem n bootLow0 i = if i = 0 then 0#64 else mkPte (i * pageSize) kernelRw := by
  rw [bootMem_table (by decide), bootTable, if_neg (by decide), if_neg (by decide), if_pos rfl]

theorem bootMem_ram1 (n i : Nat) :
    bootMem n bootRam1 i = if i = 1 then tablePte bootRam0 else mkPte (bootRam + i * 0x200000) kernelRw := by
  rw [bootMem_table (by decide), bootTable, if_neg (by decide), if_neg (by decide), if_neg (by decide), if_pos rfl]

theorem bootMem_ram0 (n i : Nat) : bootMem n bootRam0 i = if i = bootGuard then 0#64
    else mkPte (bootRoot + i * pageSize) (if i < bootText then kernelRx else kernelRw) := by
  rw [bootMem_table (by decide), bootTable, if_neg (by decide), if_neg (by decide), if_neg (by decide), if_neg (by decide)]

theorem bootKernelRoot_cases (i : Nat) : i = 0 ∧ bootKernelRoot i = tablePte bootLow1 ∨
    i = 2 ∧ bootKernelRoot i = tablePte bootRam1 ∨ bootKernelRoot i = 0#64 := by
  unfold bootKernelRoot
  split
  · exact .inl ⟨‹_›, rfl⟩
  · split
    · exact .inr (.inl ⟨‹_›, rfl⟩)
    · exact .inr (.inr rfl)

theorem boot_roles : (bootGhost n).role bootRoot = .tab 2 none ∧ (bootGhost n).role bootLow1 = .tab 1 none ∧
    (bootGhost n).role bootLow0 = .tab 0 (some (bootLow1, 0)) ∧ (bootGhost n).role bootRam1 = .tab 1 none ∧
    (bootGhost n).role bootRam0 = .tab 0 (some (bootRam1, 1)) := by
  simp [bootGhost, bootRoot, bootLow1, bootLow0, bootRam1, bootRam0]

theorem mega_kernelRw (pa : Nat) : Mega (mkPte pa kernelRw) := by
  refine ⟨?_, ?_, ?_⟩
  · rw [mkPte_v]; decide
  · rw [isLeaf_eq, mkPte_r, mkPte_x]; decide
  · rw [mkPte_u]; decide

theorem boot_slots {t k i : Nat} {up : Option (Nat × Nat)} (ht : (bootGhost n).role t = .tab (k + 1) up) :
    i < 512 → SlotOk (bootMm n) (bootGhost n) t k up i := by
  obtain ⟨-, -, h0, -, h0'⟩ := boot_roles
  intro hi
  rcases bootGhost_tab ht with ⟨rfl, hk, rfl⟩ | ⟨rfl, hk, rfl⟩ | ⟨rfl, hk, rfl⟩ | ⟨rfl, hk, rfl⟩ | ⟨rfl, hk, rfl⟩
  · have hk : k = 1 := by omega
    subst hk
    rcases bootKernelRoot_cases i with ⟨rfl, e⟩ | ⟨rfl, e⟩ | e
    · exact .kernel rfl (by decide) (by rw [show (bootMm n).kernelRoot 0 = _ from e]; exact tablePte_ne_zero _)
        (bootMem_root n 0)
    · exact .kernel rfl (by decide) (by rw [show (bootMm n).kernelRoot 2 = _ from e]; exact tablePte_ne_zero _)
        (bootMem_root n 2)
    · exact .empty ((bootMem_root n i).trans e)
  · have hk : k = 0 := by omega
    subst hk
    by_cases e : i = 0
    · subst e
      exact .child bootLow0 ((bootMem_low1 n 0).trans (if_pos rfl)) h0
    · refine .mega rfl rfl ?_
      rw [show (bootMm n).mem bootLow1 i = _ from bootMem_low1 n i, if_neg e]
      exact mega_kernelRw _
  · cases hk
  · have hk : k = 0 := by omega
    subst hk
    by_cases e : i = 1
    · subst e
      exact .child bootRam0 ((bootMem_ram1 n 1).trans (if_pos rfl)) h0'
    · refine .mega rfl rfl ?_
      rw [show (bootMm n).mem bootRam1 i = _ from bootMem_ram1 n i, if_neg e]
      exact mega_kernelRw _
  · cases hk

theorem boot_tabs (hp : p.Boots n) : TabOk p (bootMm n) (bootGhost n) where
  level ht := by
    rcases bootGhost_tab ht with ⟨-, rfl, rfl⟩ | ⟨-, rfl, rfl⟩ | ⟨-, rfl, rfl⟩ | ⟨-, rfl, rfl⟩ | ⟨-, rfl, rfl⟩ <;>
      simp
  slot ht := boot_slots ht
  low {t up i} ht _ _ := by
    rcases bootGhost_tab ht with ⟨rfl, -⟩ | ⟨-, h, -⟩ | ⟨-, h, -⟩ | ⟨-, h, -⟩ | ⟨-, h, -⟩
    · exact bootMem_root n i
    all_goals cases h
  up {q k t i} hq := by
    obtain ⟨-, h1, -, h1', -⟩ := boot_roles
    rcases bootGhost_tab hq with ⟨-, -, h⟩ | ⟨-, -, h⟩ | ⟨rfl, rfl, h⟩ | ⟨-, -, h⟩ | ⟨rfl, rfl, h⟩
    · cases h
    · cases h
    · cases h
      exact ⟨⟨_, h1⟩, by decide, (bootMem_low1 n 0).trans (if_pos rfl), nofun⟩
    · cases h
    · cases h
      exact ⟨⟨_, h1'⟩, by decide, (bootMem_ram1 n 1).trans (if_pos rfl), nofun⟩
  root {i} _ hne := by
    obtain ⟨-, h1, -, h1', -⟩ := boot_roles
    rcases bootKernelRoot_cases i with ⟨-, e⟩ | ⟨-, e⟩ | e
    · exact ⟨_, e, h1⟩
    · exact ⟨_, e, h1'⟩
    · exact absurd e hne
  kern {t} hk := by
    obtain ⟨-, h1, h0, h1', h0'⟩ := boot_roles
    rcases hp.kern with hiff | ⟨-, hno⟩
    · have ht := (hiff t).mp hk
      simp only [kernelTables, mem_cons, not_mem_nil, or_false] at ht
      rcases ht with rfl | rfl | rfl | rfl
      · exact .inl h1
      · exact .inr ⟨_, _, h0, (hiff _).mpr (by decide)⟩
      · exact .inl h1'
      · exact .inr ⟨_, _, h0', (hiff _).mpr (by decide)⟩
    · exact absurd hk (hno t)
  kern_one hst {t} ht := by
    rcases hp.kern with hiff | ⟨hno, -⟩
    · rcases bootGhost_tab ht with ⟨-, h, -⟩ | ⟨rfl, -⟩ | ⟨-, h, -⟩ | ⟨rfl, -⟩ | ⟨-, h, -⟩
      · cases h
      · exact (hiff _).mpr (by decide)
      · cases h
      · exact (hiff _).mpr (by decide)
      · cases h
    · exact absurd hst hno
  kern_zero hst {t q j} ht _ := by
    rcases hp.kern with hiff | ⟨hno, -⟩
    · rcases bootGhost_tab ht with ⟨-, h, -⟩ | ⟨-, h, -⟩ | ⟨rfl, -⟩ | ⟨-, h, -⟩ | ⟨rfl, -⟩
      · cases h
      · cases h
      · exact (hiff _).mpr (by decide)
      · cases h
      · exact (hiff _).mpr (by decide)
    · exact absurd hst hno
  frozen hf := hp.frozen _ hf
  entries := hp.entries

/-- Every leaf of the kernel is a kernel page. -/
theorem boot_leaf (ht : (bootGhost n).role t = .tab 0 up) :
    (bootMm n).mem t i = 0#64 ∨ ∃ pa fl, (bootMm n).mem t i = mkPte pa fl ∧ (fl = kernelRw ∨ fl = kernelRx) := by
  rcases bootGhost_tab ht with ⟨-, h, -⟩ | ⟨-, h, -⟩ | ⟨rfl, -⟩ | ⟨-, h, -⟩ | ⟨rfl, -⟩
  · cases h
  · cases h
  · rw [show (bootMm n).mem bootLow0 i = _ from bootMem_low0 n i]
    split
    · exact .inl rfl
    · exact .inr ⟨_, _, rfl, .inl rfl⟩
  · cases h
  · rw [show (bootMm n).mem bootRam0 i = _ from bootMem_ram0 n i]
    split
    · exact .inl rfl
    · refine .inr ⟨_, _, rfl, ?_⟩
      split
      · exact .inr rfl
      · exact .inl rfl

theorem boot_leaf_user (ht : (bootGhost n).role t = .tab 0 up) : has ((bootMm n).mem t i) pteU = false := by
  rcases boot_leaf ht with e | ⟨pa, fl, e, rfl | rfl⟩
  · rw [e, has_zero]
  · rw [e, mkPte_u]; decide
  · rw [e, mkPte_u]; decide

theorem boot_leaves (hp : p.Boots n) : LeafOk p (bootMm n) (bootGhost n) where
  valid {t up i} ht _ := by
    rcases boot_leaf ht with e | ⟨pa, fl, e, rfl | rfl⟩
    · exact .inl e
    · rw [e, mkPte_v]; exact .inr (by decide)
    · rw [e, mkPte_v]; exact .inr (by decide)
  ok {t up i} ht _ hv := by
    rcases boot_leaf ht with e | ⟨pa, fl, e, rfl | rfl⟩
    · rw [e] at hv
      cases hv
    · rw [e, pteFlags_mkPte _ (by decide)]
      exact hp.rw
    · rw [e, pteFlags_mkPte _ (by decide)]
      exact hp.rx
  user {t up i} ht _ _ hu := by
    rw [boot_leaf_user ht] at hu
    cases hu
  kern _ {t up i} _ ht _ _ := boot_leaf_user ht

theorem boot_counts (hn : n ≤ 500000) : CountOk p (bootMm n) (bootGhost n) where
  free {f} hf := by
    obtain ⟨i, hi, rfl⟩ := mem_map.mp (bootGhost_free.mp hf)
    rw [mem_range] at hi
    have h1 : ¬bootFrame i < bootRam := by simp only [bootFrame, bootRam]; omega
    have h2 : (bootFrame i - bootRam) / pageSize = 0x205 + i := by
      simp only [bootFrame, bootRam, pageSize]
      omega
    have h3 : 0x205 + i < maxPages := by simp only [maxPages]; omega
    simp only [Mm.refs, Mm.pageIndex, bootMm, h1, if_false, h2, h3, if_true]
    exact if_neg (by omega)
  tab {f k up} hf := by
    rcases bootGhost_tab hf with ⟨rfl, -⟩ | ⟨rfl, -⟩ | ⟨rfl, -⟩ | ⟨rfl, -⟩ | ⟨rfl, -⟩ <;>
      exact show (bootMm 0).refs _ = 1 by decide
  page {f} hf := by
    simp only [bootGhost] at hf
    split_ifs at hf
  ext _ := rfl
  priv _ {t up i} ht _ _ hu := by
    rw [boot_leaf_user ht] at hu
    cases hu

/-- The machine starts in the kernel invariant, with the counts far from their limit. -/
theorem boot_sound (hp : p.Boots n) (hn : n ≤ 500000 := by decide) : KInv p [] (booted n) (bootGhost n) where
  mm := ⟨boot_pool hn, boot_tabs hp, boot_leaves hp, boot_counts hn⟩
  ext f := rfl
  root hq := by cases hq
  inj hq := by cases hq
  pid hq := by cases hq
  vmo hv := by cases hv
  swap hs := by cases hs
  satp _ := rfl

theorem boot_counts_lt (n i : Nat) : (booted n).mm.counts i < 65535 := by
  show (if 0x200 ≤ i ∧ i < 0x205 then 1 else 0) < 65535
  split <;> decide

theorem boot_counted (n : Nat) : Counted (booted n) := fun i _ => boot_counts_lt n i

/-- Counts along a run that is written out. -/
theorem counts_lt {c : Nat → Nat} (hc : ∀ i, c i < 65535) (ws : List (Nat × Nat)) (hw : ∀ w ∈ ws, w.2 < 65535) (i : Nat) :
    ws.foldl (fun c w => Function.update c w.1 w.2) c i < 65535 := by
  induction ws generalizing c with
  | nil => exact hc i
  | cons w ws ih =>
    refine ih (fun i => ?_) fun v hv => hw v (mem_cons_of_mem w hv)
    dsimp only
    rw [Function.update_apply]
    split
    · exact hw w (.head _)
    · exact hc i

end Boot
end OpenV
