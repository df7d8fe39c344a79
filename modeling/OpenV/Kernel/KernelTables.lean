import OpenV.Kernel.Ownership

/- The kernel's part of every address space. The tables below the root entries 0
   to 3 are shared by all processes; they stay as they are as long as every address
   a process hands in lies above them. The check that an address does is missing
   from `unmap_range`, and for an address of more than 39 bits from the page-fault
   handler and `map_page`. -/
namespace OpenV

/-- The level-1 table of a kernel root entry. -/
def kernelTable1 (s : Mm) (i : Nat) : Option Nat :=
  if has (s.kernelRoot i) pteV && !isLeaf (s.kernelRoot i) then some (ptePa (s.kernelRoot i)) else none

/-- A table below the kernel's root entries. -/
def KernelTable (s : Mm) (t : Nat) : Prop :=
  ∃ i < 4, kernelTable1 s i = some t ∨ ∃ j < 512, (kernelTable1 s i).bind (tableAt s · j) = some t

/-- The kernel's part of every address space of `k` is as it was in `s`. -/
structure KernelIntact (s : Mm) (k : Kern) : Prop where
  saved : ∀ i, k.mm.kernelRoot i = s.kernelRoot i
  root : ∀ {pid q i}, k.procs pid = some q → i < 4 → k.mm.mem q.root i = s.kernelRoot i
  table : ∀ {t}, KernelTable s t → ∀ i, k.mm.mem t i = s.mem t i

/-- Nothing changes in the tables of the kernel as `s` has them. -/
def sealing (s : Mm) : Policy where
  leafOk := leafShaped.leafOk
  priv := False
  strict := True
  kern := KernelTable s
  frozen := KernelTable s
  image := s.mem
  entries := s.kernelRoot

theorem sealing_serves (s : Mm) : (sealing s).Serves where
  faults := {
    closed := ⟨leafShaped_serves.faults.closed.shared, leafShaped_serves.faults.closed.uncow, .inl trivial⟩
    data := leafShaped_serves.faults.data
    code := leafShaped_serves.faults.code }
  shared := fun h => h
  plain := leafShaped_serves.plain

/-- The addresses a step touches lie above the kernel's root entries. -/
def Op.Above (k : Kern) : Op → Prop
  | .fault _ va => 4 ≤ vpn va 2
  | .load data | .exec data => ∀ ph ∈ programHeaders data, ph.type = ptLoad → ph.memsz ≠ 0 →
      ∀ i < segmentPages ph, 4 ≤ vpn (pageDown ph.vaddr + i * pageSize) 2
  | .vmoMap _ vaHint mapSize _ => ∀ q, k.currentProc = some q → ∀ j < pageUp mapSize / pageSize,
      4 ≤ vpn ((vmoMapVa q vaHint (pageUp mapSize)).1 + j * pageSize) 2
  | .unmap _ va size => ∀ va', pageDown va ≤ va' → va' < saturatingAdd va (pageUp size) → 4 ≤ vpn va' 2
  | .physMap va _ len => ∀ j < len / pageSize, 4 ≤ vpn (va + j * pageSize) 2
  | _ => True

section Sealed
variable {s : Mm} {k : Kern}

theorem loadsWithin_sealing {data : Bytes} (h : SegmentsAre (isLeaf · = true) data)
    (ha : ∀ ph ∈ programHeaders data, ph.type = ptLoad → ph.memsz ≠ 0 →
      ∀ i < segmentPages ph, 4 ≤ vpn (pageDown ph.vaddr + i * pageSize) 2) : LoadsWithin (sealing s) data :=
  fun ph hph ht hm => ⟨(loadsWithin_leafShaped h ph hph ht hm).1, fun i hi => .inl (ha ph hph ht hm i hi)⟩

theorem Op.Above.allowed {op : Op} (ha : op.Above k) (h : op.Careful k) : op.Allowed (sealing s) k := by
  have hleaf : ∀ fl, (sealing s).leafOk fl → isLeaf fl = true := fun _ h => h.1
  cases op with
  | fault cause va => exact .inl ha
  | load data => exact loadsWithin_sealing h ha
  | vmoMap handle vaHint mapSize prot =>
    have hallowed : Op.Allowed leafShaped k (.vmoMap handle vaHint mapSize prot) := Op.Careful.allowed h
    exact ⟨hallowed.1, fun q hq j hj _ => .inl (ha q hq j hj)⟩
  | unmap fuel va size => exact .inr ha
  | close handle => exact h
  | physMap va pa len => exact ⟨h, fun j hj _ => .inl (ha j hj)⟩
  | exec data => exact ⟨loadsWithin_sealing h.1 ha, h.2, hleaf⟩
  | exit pid status => exact h
  | reap pid => exact ⟨h, hleaf⟩
  | _ => exact trivial

theorem Sound.kernelIntact (h : Sound (sealing s) k) : KernelIntact s k := by
  obtain ⟨g, h⟩ := h
  have hroot := h.mm.tabs.entries trivial
  refine ⟨congrFun hroot, fun {pid q i} hq hi => ?_, fun {t} ht i => (h.mm.tabs.frozen ht).2 i⟩
  rw [h.mm.tabs.low (h.root hq) hi (.inl trivial)]
  exact congrFun hroot i

/-- In every run of careful steps above the kernel, the kernel's tables stay as they were. -/
theorem kernel_intact {k' : Kern} {ops : List Op} (h : Sound (sealing k.mm) k) (hc : Counted k)
    (hrun : runAll Op.run ops k = some k')
    (hall : Along Op.run (fun op k k' => op.Careful k ∧ op.Above k ∧ Counted k') ops k) : KernelIntact k.mm k' :=
  (run_sound (sealing_serves k.mm) h hc hrun (hall.mono fun _ _ _ h => ⟨h.2.1.allowed h.1, h.2.2⟩)).1.kernelIntact

end Sealed

/-! ## The machine as booted -/

section Boot

theorem bootTable1 (n : Nat) : ∀ i < 4, kernelTable1 (bootMm n) i =
    if i = 0 then some bootLow1 else if i = 2 then some bootRam1 else none := by
  have h : ∀ i < 4, kernelTable1 (bootMm 0) i =
      if i = 0 then some bootLow1 else if i = 2 then some bootRam1 else none := by decide
  exact h

theorem boot_low_below (n j : Nat) : tableAt (bootMm n) bootLow1 j = if j = 0 then some bootLow0 else none := by
  have hm : (bootMm n).mem bootLow1 j = _ := bootMem_low1 n j
  unfold tableAt
  rw [hm]
  split
  · decide
  · obtain ⟨-, hleaf, -⟩ := mega_kernelRw (j * 0x200000)
    rw [hleaf, Bool.not_true, Bool.and_false]
    rfl

theorem boot_ram_below (n j : Nat) : tableAt (bootMm n) bootRam1 j = if j = 1 then some bootRam0 else none := by
  have hm : (bootMm n).mem bootRam1 j = _ := bootMem_ram1 n j
  unfold tableAt
  rw [hm]
  split
  · decide
  · obtain ⟨-, hleaf, -⟩ := mega_kernelRw (bootRam + j * 0x200000)
    rw [hleaf, Bool.not_true, Bool.and_false]
    rfl

theorem boot_kernelTable (n t : Nat) : KernelTable (bootMm n) t ↔ t ∈ kernelTables := by
  simp only [kernelTables, List.mem_cons, List.not_mem_nil, or_false]
  refine ⟨fun h => ?_, fun h => ?_⟩
  · obtain ⟨i, hi, h | ⟨j, -, h⟩⟩ := h <;> rw [bootTable1 n i hi] at h
    · split_ifs at h <;> cases h <;> simp
    · split_ifs at h
      · rw [Option.bind_some, boot_low_below] at h
        split_ifs at h
        cases h
        simp
      · rw [Option.bind_some, boot_ram_below] at h
        split_ifs at h
        cases h
        simp
      · cases h
  · rcases h with rfl | rfl | rfl | rfl
    · exact ⟨0, by decide, .inl (bootTable1 n 0 (by decide))⟩
    · refine ⟨0, by decide, .inr ⟨0, by decide, ?_⟩⟩
      rw [bootTable1 n 0 (by decide)]
      exact boot_low_below n 0
    · exact ⟨2, by decide, .inl (bootTable1 n 2 (by decide))⟩
    · refine ⟨2, by decide, .inr ⟨1, by decide, ?_⟩⟩
      rw [bootTable1 n 2 (by decide)]
      exact boot_ram_below n 1

theorem sealing_boots (n : Nat) : (sealing (bootMm n)).Boots n where
  rw := (leafShaped_boots n).rw
  rx := (leafShaped_boots n).rx
  kern := .inl (boot_kernelTable n)
  frozen := fun _ h => ⟨h, fun _ => rfl⟩
  entries := fun _ => rfl

set_option maxRecDepth 20000 in
theorem kernel_intact_mapRun : ∃ k', runAll Op.run [.spawn ⟨true, 0⟩, .schedule 1, .vmoCreate 4096,
    .vmoMap 65536 0 4096 3, .unmap 2 0x400000000 4096] (booted 20) = some k' ∧ KernelIntact (bootMm 20) k' := by
  obtain ⟨h1, h2, h3, h4, h5, -⟩ := tidyRun_counted
  refine exists_of_isSome (by decide +kernel) fun k' hk => ?_
  refine kernel_intact ⟨_, boot_sound (sealing_boots 20)⟩ (boot_counted 20) hk ?_
  refine ⟨⟨trivial, trivial, h1⟩, ⟨trivial, trivial, h2⟩, ⟨trivial, trivial, h3⟩, ⟨?_, ?_, h4⟩, ⟨trivial, ?_, h5⟩, trivial⟩
  · show isLeaf (protFlags 3) = true
    decide
  · intro q hq j hj
    cases hq
    have hj0 : j = 0 := Nat.lt_one_iff.mp hj
    subst hj0
    decide
  · intro va' hlo hhi
    have hlo : 0x400000000 ≤ va' := hlo
    have hhi : va' < 0x400001000 := hhi
    have hroot : va' / 2 ^ (12 + 9 * 2) = 16 := by omega
    rw [vpn_eq, hroot]
    decide

/-- A process unmaps page 1: the entry goes from the kernel's own level-0 table. -/
theorem kernel_broken : Sound (sealing (bootMm 20)) (booted 20) ∧ ∃ k', runAll Op.run
    [.spawn ⟨true, 0⟩, .schedule 1, .unmap 2 0x1000 4096] (booted 20) = some k' ∧ ¬KernelIntact (bootMm 20) k' := by
  refine ⟨⟨_, boot_sound (sealing_boots 20)⟩, ?_⟩
  refine exists_of_any (fun k => k.mm.mem bootLow0 1 != (bootMm 20).mem bootLow0 1) (by decide +kernel) fun k' hbad h => ?_
  rw [h.table ((boot_kernelTable 20 bootLow0).mpr (by decide)) 1] at hbad
  simp at hbad

end Boot
end OpenV
