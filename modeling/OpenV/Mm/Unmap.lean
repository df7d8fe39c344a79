import OpenV.Mm.Vmm

/- When `unmap_range` returns. Each round moves the address up, by a page or past the pages
   of a missing table; the sums saturate and are rounded down to a page, so the last page of the
   address space is a fixed point: a range that ends inside it is never left. -/
namespace OpenV

open Cmd

/-- The last page of the 64-bit address space. -/
def topPage : Nat := 2 ^ 64 - 4096

variable {va endVa : Nat}

theorem pageDown_saturatingAdd {d : Nat} (ha : va % pageSize = 0) (hd : pageSize ≤ d) :
    pageDown (saturatingAdd va d) % pageSize = 0 ∧ pageDown (saturatingAdd va d) ≤ topPage ∧
      (va < topPage → va + pageSize ≤ pageDown (saturatingAdd va d)) := by
  simp only [pageDown, saturatingAdd, usizeMax, topPage, pageSize] at *
  omega

theorem dropLeaf_returns (pt i : Nat) (e : Word) (s : Mm) :
    (dropLeaf pt i e).wp (fun _ _ => True) (fun _ => False) (fun _ => False) s := by
  simp only [dropLeaf, wp_bind, wp_ite, wp_modify, implies_true, and_self]

/-- A round goes on at a page further up, except at the last one. -/
theorem unmapStep_moves (root : Nat) (ha : va % pageSize = 0) (s : Mm) :
    (unmapStep root va).wp (fun va' _ => va' % pageSize = 0 ∧ va' ≤ topPage ∧ (va < topPage → va + pageSize ≤ va'))
      (fun _ => False) (fun _ => topPage ≤ va) s := by
  have hadd : ¬usizeMax < va + pageSize →
      (va + pageSize) % pageSize = 0 ∧ va + pageSize ≤ topPage ∧ (va < topPage → va + pageSize ≤ va + pageSize) := by
    simp only [usizeMax, topPage, pageSize] at *
    omega
  have hover : usizeMax < va + pageSize → topPage ≤ va := by
    simp only [usizeMax, topPage, pageSize]
    omega
  simp only [unmapStep, wp_bind, wp_get, wp_ite, wp_pure, wp_die]
  refine ⟨fun _ => pageDown_saturatingAdd ha (by decide), fun _ => ⟨fun _ => pageDown_saturatingAdd ha (by decide),
    fun _ => ⟨fun _ => ?_, fun _ => ⟨hover, hadd⟩⟩⟩⟩
  exact wp_mono (dropLeaf_returns _ _ _ s) (fun _ _ _ => ⟨hover, hadd⟩) (fun _ h => h)

/-- A range that ends before the last page is left after as many rounds as it has pages. -/
theorem unmapLoop_returns (root : Nat) (hend : endVa ≤ topPage) : ∀ (n va : Nat) (s : Mm),
    va % pageSize = 0 → endVa ≤ va + pageSize * n →
      (unmapLoop root endVa n va).wp (fun ended _ => ended = true) (fun _ => False) (fun _ => False) s
  | 0, va, s, _, hn => by
    simp only [unmapLoop, wp_pure, decide_eq_true_eq]
    exact hn
  | n + 1, va, s, ha, hn => by
    simp only [unmapLoop, wp_ite, wp_bind, wp_pure, implies_true, and_true]
    intro hlt
    refine wp_mono (unmapStep_moves root ha s) (fun va' s' h => ?_) (fun _ h => h) (fun _ h => by omega)
    exact unmapLoop_returns root hend n va' s' h.1 (by rw [Nat.mul_succ] at hn; omega)

/-- A range that ends in the last page is never left. -/
theorem unmapLoop_hangs (root : Nat) (hend : topPage < endVa) : ∀ (n va : Nat) (s : Mm),
    va % pageSize = 0 → va ≤ topPage →
      (unmapLoop root endVa n va).wp (fun ended _ => ended = false) (fun _ => False) (fun _ => True) s
  | 0, va, s, _, hle => by
    simp only [unmapLoop, wp_pure, decide_eq_false_iff_not]
    omega
  | n + 1, va, s, ha, hle => by
    simp only [unmapLoop, wp_ite, wp_bind]
    refine ⟨fun _ => ?_, fun h => absurd (hle.trans_lt hend) h⟩
    exact wp_mono (unmapStep_moves root ha s) (fun va' s' h => unmapLoop_hangs root hend n va' s' h.1 h.2.1)
      (fun _ h => h) (fun _ _ => trivial)

theorem pageDown_le_topPage (h : va < 2 ^ 64) : pageDown va % pageSize = 0 ∧ pageDown va ≤ topPage := by
  simp only [pageDown, topPage, pageSize]
  omega

/-- `unmap_range` returns if and only if its range ends before the last page of the address space. -/
theorem unmapRange_returns_iff (s : Mm) (root : Nat) (vaStart len : Word) :
    (∃ n, (unmapRange n root vaStart.toNat len.toNat s).1 = .ok true) ↔ vaStart.toNat + len.toNat ≤ topPage := by
  obtain ⟨ha, hle⟩ := pageDown_le_topPage vaStart.isLt
  constructor
  · rintro ⟨n, h⟩
    by_contra hover
    have hend : topPage < saturatingAdd vaStart.toNat len.toNat := by
      simp only [saturatingAdd, usizeMax, topPage] at *
      omega
    have := (wp_of_eq (Cmd.eq_of_fst h)).mp (unmapLoop_hangs root hend n _ s ha hle)
    exact Bool.noConfusion this
  · intro hin
    have hend : saturatingAdd vaStart.toNat len.toNat ≤ topPage := (Nat.min_le_left _ _).trans hin
    refine ⟨saturatingAdd vaStart.toNat len.toNat, ?_⟩
    have h := unmapLoop_returns root hend (saturatingAdd vaStart.toNat len.toNat) (pageDown vaStart.toNat) s ha
      (by simp only [pageSize]; omega)
    rcases hrun : unmapRange (saturatingAdd vaStart.toNat len.toNat) root vaStart.toNat len.toNat s with ⟨_ | _ | _, s'⟩
    · exact congrArg Res.ok ((wp_of_eq hrun).mp h)
    · exact ((wp_of_eq hrun).mp h).elim
    · exact ((wp_of_eq hrun).mp h).elim

/-- A memory in which nothing is mapped. -/
def blankMm : Mm :=
  { ramStart := 0x80000000, kernelRoot := fun _ => 0, head := 0, counts := fun _ => 0, mem := fun _ _ => 0 }

/-- With nothing mapped, unmapping the last page goes on for ever. -/
theorem unmap_last_page_hangs : ¬ ∃ n, (unmapRange n 0x80000000 topPage pageSize blankMm).1 = .ok true := by
  have hstep : unmapStep 0x80000000 topPage blankMm = (.ok topPage, blankMm) := rfl
  have hloop : ∀ n, unmapLoop 0x80000000 usizeMax n topPage blankMm = (.ok false, blankMm) := by
    intro n
    induction n with
    | zero => rfl
    | succ n ih =>
      exact ih
  have hdown : pageDown topPage = topPage := by decide
  have hend : saturatingAdd topPage pageSize = usizeMax := by decide
  rintro ⟨n, h⟩
  rw [unmapRange, hdown, hend, hloop] at h
  exact Bool.noConfusion (Res.ok.inj h)

end OpenV
