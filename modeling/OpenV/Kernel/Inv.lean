import OpenV.Lib.Count
import OpenV.Mm.CloneSpec
import OpenV.Mm.FillSpec
import OpenV.Kernel.Fault
import OpenV.Posix.Spawn

/- The kernel invariant: the memory layout, with the live memory objects as the
   holders of pages outside the page tables, an address space per process, and
   swapped-out pages whose flags the policy admits. -/
namespace OpenV

open Function

/-- How often the page `f` is listed in a memory object. -/
def Vmo.refs (f : Nat) : Option Vmo → Nat
  | some v => v.physicalPages.count f
  | none => 0

/-- How often the page `f` is listed in the live memory objects. -/
def vmoRefs (k : Kern) (f : Nat) : Nat := ∑ id ∈ Finset.range k.nextVmo, Vmo.refs f (k.vmos id)

/-- The kernel invariant while the frames of `held` are in the hands of a guard. -/
structure KInv (p : Policy) (held : List Nat) (k : Kern) (g : Ghost) : Prop where
  mm : Inv p k.mm g
  ext : ∀ f, g.ext f = vmoRefs k f + held.count f
  root : ∀ {pid q}, k.procs pid = some q → g.role q.root = .tab 2 none
  inj : ∀ {pid pid' q q'}, k.procs pid = some q → k.procs pid' = some q' → q.root = q'.root → pid = pid'
  pid : ∀ {pid q}, k.procs pid = some q → pid < k.nextPid
  vmo : ∀ {id v}, k.vmos id = some v → id < k.nextVmo ∧ v.physicalPages.Nodup
  swap : ∀ {r va sp}, k.swapMap r va = some sp →
    LowFlags sp.flags ∧ has sp.flags pteU = true ∧ p.leafOk (pteV ||| sp.flags)
  satp : ∀ r, k.satpRefcount r = none

section KInv
variable {k : Kern} {g g' : Ghost} {p : Policy} {s' : Mm} {held : List Nat}

/-- The memory changes under the same processes and memory objects. -/
theorem KInv.of_mm (h : KInv p held k g) {held' : List Nat} (hi : Inv p s' g')
    (hext : ∀ f, g'.ext f = vmoRefs k f + held'.count f)
    (hroots : ∀ {pid q}, k.procs pid = some q → g'.role q.root = .tab 2 none) :
    KInv p held' { k with mm := s' } g' where
  mm := hi
  ext := hext
  root := hroots
  inj := h.inj
  pid := h.pid
  vmo := h.vmo
  swap := h.swap
  satp := h.satp

/-- A step of the memory manager. -/
theorem KInv.step (h : KInv p held k g) (hs : MmStep p k.mm g s' g') : KInv p held { k with mm := s' } g' :=
  h.of_mm hs.inv (fun f => by rw [hs.moves.ext]; exact h.ext f) fun hq => (hs.roots _).mpr (h.root hq)

variable {pid id : Nat} {q : Process} {v : Vmo}

theorem setProc_cases {pid' : Nat} {r : Process} (hr : (k.setProc pid (some q)).procs pid' = some r) :
    pid' = pid ∧ r = q ∨ pid' ≠ pid ∧ k.procs pid' = some r := by
  by_cases e : pid' = pid
  · subst e
    simp only [Kern.setProc, update_self, Option.some.injEq] at hr
    exact .inl ⟨rfl, hr.symm⟩
  · simp only [Kern.setProc, update_of_ne e] at hr
    exact .inr ⟨e, hr⟩

/-- The process `pid` is put in the table, with an address space of its own. -/
theorem KInv.putProc (h : KInv p held k g) (hpid : pid < k.nextPid) (hrole : g.role q.root = .tab 2 none)
    (hinj : ∀ {pid' q'}, pid' ≠ pid → k.procs pid' = some q' → q'.root ≠ q.root) :
    KInv p held (k.setProc pid (some q)) g := by
  refine ⟨h.mm, h.ext, fun hr => ?_, fun hr hr' e => ?_, fun hr => ?_, h.vmo, h.swap, h.satp⟩
  · rcases setProc_cases hr with ⟨-, rfl⟩ | ⟨-, hr⟩
    · exact hrole
    · exact h.root hr
  · rcases setProc_cases hr with ⟨e1, e2⟩ | ⟨hne, h1⟩ <;>
      rcases setProc_cases hr' with ⟨e1', e2'⟩ | ⟨hne', h1'⟩
    · rw [e1, e1']
    · exact absurd (by rw [← e, e2]) (hinj hne' h1')
    · exact absurd (by rw [e, e2']) (hinj hne h1)
    · exact h.inj h1 h1' e
  · rcases setProc_cases hr with ⟨rfl, -⟩ | ⟨-, hr⟩
    · exact hpid
    · exact h.pid hr

/-- A process may change as long as it keeps its address space. -/
theorem KInv.setProc {q' : Process} (h : KInv p held k g) (hq : k.procs pid = some q) (hroot : q'.root = q.root) :
    KInv p held (k.setProc pid (some q')) g := by
  refine h.putProc (h.pid hq) (by rw [hroot]; exact h.root hq) fun hne hq' e => hne ?_
  exact h.inj hq' hq (by rw [e, hroot])

theorem KInv.dropProc (h : KInv p held k g) (pid : Nat) : KInv p held (k.setProc pid none) g := by
  have hold : ∀ {pid' r}, (k.setProc pid none).procs pid' = some r → k.procs pid' = some r := by
    intro pid' r hr
    by_cases e : pid' = pid
    · subst e
      simp [Kern.setProc] at hr
    · simpa only [Kern.setProc, update_of_ne e] using hr
  exact ⟨h.mm, h.ext, fun hr => h.root (hold hr), fun hr hr' => h.inj (hold hr) (hold hr'),
    fun hr => h.pid (hold hr), h.vmo, h.swap, h.satp⟩

theorem KInv.chargePage (h : KInv p held k g) : KInv p held (chargePage k) g := by
  unfold OpenV.chargePage
  cases hc : k.currentProc with
  | none => exact h
  | some q =>
    have h' : KInv p held (allocMemory q.job pageSize k) g :=
      ⟨h.mm, h.ext, h.root, h.inj, h.pid, h.vmo, h.swap, h.satp⟩
    have hq : (allocMemory q.job pageSize k).procs k.currentPid = some q := hc
    exact h'.setProc hq rfl

theorem chargePage_same (k : Kern) : (chargePage k).mm = k.mm ∧ (chargePage k).vmos = k.vmos ∧
    (chargePage k).nextVmo = k.nextVmo := by
  unfold chargePage
  cases k.currentProc <;> exact ⟨rfl, rfl, rfl⟩

/-- Swap entries may go, and come with flags that the policy admits. -/
theorem KInv.setSwap (h : KInv p held k g) {m : Nat → Nat → Option SwappedPage}
    (hm : ∀ {r va sp}, m r va = some sp → k.swapMap r va = some sp ∨
      LowFlags sp.flags ∧ has sp.flags pteU = true ∧ p.leafOk (pteV ||| sp.flags)) :
    KInv p held { k with swapMap := m } g :=
  ⟨h.mm, h.ext, h.root, h.inj, h.pid, h.vmo, fun hs => (hm hs).elim h.swap (fun h => h), h.satp⟩

theorem KInv.putSwap (h : KInv p held k g) (root va : Nat) {page : SwappedPage}
    (hlow : LowFlags page.flags) (hu : has page.flags pteU = true) (hok : p.leafOk (pteV ||| page.flags)) :
    KInv p held (putSwap root va page k) g := by
  refine h.setSwap fun {r v sp} hs => ?_
  split at hs
  · cases hs
    exact .inr ⟨hlow, hu, hok⟩
  · exact .inl hs

theorem KInv.dropSwap (h : KInv p held k g) (root va : Nat) : KInv p held (dropSwap root va k) g := by
  refine h.setSwap fun {r v sp} hs => .inl ?_
  split at hs
  · cases hs
  · exact hs

/-! ## Memory objects -/

theorem vmoRefs_update {k : Kern} (hid : id < k.nextVmo) (o : Option Vmo) (f : Nat) :
    vmoRefs { k with vmos := update k.vmos id o } f + Vmo.refs f (k.vmos id) = vmoRefs k f + Vmo.refs f o :=
  sum_update (Vmo.refs f) k.vmos hid o

theorem vmoRefs_pos (h : KInv p held k g) {f : Nat} (hv : k.vmos id = some v) (hf : f ∈ v.physicalPages) :
    0 < vmoRefs k f := by
  have hle := Finset.single_le_sum (f := fun x => Vmo.refs f (k.vmos x)) (fun _ _ => Nat.zero_le _)
    (Finset.mem_range.mpr (h.vmo hv).1)
  have hpos := List.count_pos_iff.mpr hf
  simp only [hv] at hle
  exact lt_of_lt_of_le hpos hle

/-- A memory object goes; its pages are in hand. -/
theorem KInv.dropVmo (h : KInv p held k g) (hv : k.vmos id = some v) :
    KInv p (v.physicalPages ++ held) { k with vmos := update k.vmos id none } g := by
  refine ⟨h.mm, fun f => ?_, h.root, h.inj, h.pid, fun {id' v'} hv' => ?_, h.swap, h.satp⟩
  · have hu := vmoRefs_update (h.vmo hv).1 none f
    rw [hv] at hu
    simp only [Vmo.refs] at hu
    rw [h.ext, List.count_append]
    omega
  · by_cases e : id' = id
    · subst e
      simp at hv'
    · simp only [update_of_ne e] at hv'
      exact h.vmo hv'

/-- The pages in hand become a memory object. -/
theorem KInv.addVmo (h : KInv p v.physicalPages k g) (hnd : v.physicalPages.Nodup) :
    KInv p [] { k with vmos := update k.vmos k.nextVmo (some v), nextVmo := k.nextVmo + 1 } g := by
  refine ⟨h.mm, fun f => ?_, h.root, h.inj, h.pid, fun {id' v'} hv' => ?_, h.swap, h.satp⟩
  · have hsame : ∀ x ∈ Finset.range k.nextVmo,
        Vmo.refs f (update k.vmos k.nextVmo (some v) x) = Vmo.refs f (k.vmos x) := fun x hx => by
      rw [update_of_ne (Nat.ne_of_lt (Finset.mem_range.mp hx))]
    simp only [vmoRefs, Finset.sum_range_succ, update_self]
    rw [Finset.sum_congr rfl hsame, h.ext]
    rfl
  · by_cases e : id' = k.nextVmo
    · subst e
      simp only [update_self, Option.some.injEq] at hv'
      rw [← hv']
      exact ⟨Nat.lt_succ_self _, hnd⟩
    · simp only [update_of_ne e] at hv'
      exact ⟨Nat.lt_succ_of_lt (h.vmo hv').1, (h.vmo hv').2⟩

end KInv

/-- The processes are as they were. -/
def SameProcs (k k' : Kern) : Prop := k'.procs = k.procs ∧ k'.currentPid = k.currentPid

theorem SameProcs.trans {k k' k'' : Kern} (h : SameProcs k k') (h' : SameProcs k' k'') : SameProcs k k'' :=
  ⟨h'.1.trans h.1, h'.2.trans h.2⟩

/-- A step of the kernel that keeps the set of address spaces. -/
structure KStep (p : Policy) (held : List Nat) (k : Kern) (g : Ghost) (k' : Kern) (g' : Ghost) : Prop where
  inv : KInv p held k' g'
  roots : SameRoots g g'
  small : Small k.mm g → Small k'.mm g'
  ext : g'.ext = g.ext
  total : ∀ f, 0 < g.ext f → leafRefs k'.mm g' f ≤ leafRefs k.mm g f
  vmos : k'.vmos = k.vmos ∧ k'.nextVmo = k.nextVmo

section KStep
variable {k k' k'' : Kern} {g g' g'' : Ghost} {p : Policy} {s' : Mm} {held : List Nat}

theorem KStep.refl (h : KInv p held k g) : KStep p held k g k g := 
  ⟨h, .refl, fun h => h, rfl, fun _ _ => le_rfl, rfl, rfl⟩

theorem KStep.trans (h : KStep p held k g k' g') (h' : KStep p held k' g' k'' g'') : KStep p held k g k'' g'' :=
  ⟨h'.inv, h.roots.trans h'.roots, fun hs => h'.small (h.small hs), h'.ext.trans h.ext,
    fun f hf => (h'.total f (by rw [h.ext]; exact hf)).trans (h.total f hf), h'.vmos.1.trans h.vmos.1,
    h'.vmos.2.trans h.vmos.2⟩

theorem KStep.of_mm (h : KInv p held k g) (hs : MmStep p k.mm g s' g') : KStep p held k g { k with mm := s' } g' :=
  ⟨h.step hs, hs.roots, hs.small, hs.moves.ext, hs.held, rfl, rfl⟩

/-- Memory stays as it is. -/
theorem KStep.of_inv (h : KInv p held k' g) (hm : k'.mm = k.mm) (hv : k'.vmos = k.vmos)
    (hn : k'.nextVmo = k.nextVmo) : KStep p held k g k' g :=
  ⟨h, .refl, fun hs => by rw [hm]; exact hs, rfl, fun f _ => by rw [hm], hv, hn⟩

end KStep
end OpenV
