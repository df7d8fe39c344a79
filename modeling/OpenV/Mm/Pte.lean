import Mathlib

/- Page-table entries (`src/mm/vmm.rs`): a 64-bit word holding a physical page
   number from bit 10 upward and flag bits below it. `has e f` is the source's
   test `e & f != 0`. -/
namespace OpenV

abbrev Word := BitVec 64

def pteV : Word := 1#64 <<< 0
def pteR : Word := 1#64 <<< 1
def pteW : Word := 1#64 <<< 2
def pteX : Word := 1#64 <<< 3
def pteU : Word := 1#64 <<< 4
/-- Copy-on-write marker (a software-reserved bit). -/
def pteCow : Word := 1#64 <<< 8

/-- `e & f != 0`. -/
def has (e f : Word) : Bool := e &&& f != 0#64

/-- The low ten bits of an entry. -/
def flagMask : Word := 0x3FF#64

def pteFlags (e : Word) : Word := e &&& flagMask

/-- `(e >> 10) << 12`. -/
def ptePa (e : Word) : Nat := ((e >>> 10) <<< 12).toNat

/-- `((pa >> 12) << 10) | flags`. -/
def mkPte (pa : Nat) (flags : Word) : Word := (BitVec.ofNat 64 (pa >>> 12) <<< 10) ||| flags

/-- A pointer to a next-level table: `((pa >> 12) << 10) | PTE_V`. -/
def tablePte (pa : Nat) : Word := mkPte pa pteV

/-- `(e & (PTE_R | PTE_X)) != 0`, the source's test for a leaf. -/
def isLeaf (e : Word) : Bool := has e (pteR ||| pteX)

/-! ## Flag tests -/

variable {k i pa : Nat} {e f flags : Word}

theorem has_bit (e : Word) (hk : k < 64) : has e (1#64 <<< k) = e.getLsbD k := by
  unfold has
  by_cases h : e.getLsbD k = true
  · rw [h, bne_iff_ne]
    intro h0
    have hb := congrArg (fun w => BitVec.getLsbD w k) h0
    simp only [BitVec.getLsbD_and, h, BitVec.getLsbD_zero] at hb
    simp [hk] at hb
  · have h' : e.getLsbD k = false := by simpa using h
    rw [h', bne_eq_false_iff_eq]
    apply BitVec.eq_of_getLsbD_eq
    intro i hi
    rw [BitVec.getLsbD_and, BitVec.getLsbD_zero]
    by_cases hik : i = k
    · rw [hik, h', Bool.false_and]
    · have : (1#64 <<< k).getLsbD i = false := by
        rcases Nat.lt_or_ge i k with hlt | hge
        · simp [hlt]
        · have : ¬(i - k = 0) := by omega
          simp [this]
      rw [this, Bool.and_false]

theorem has_v (e : Word) : has e pteV = e.getLsbD 0 := has_bit e (by decide)
theorem has_r (e : Word) : has e pteR = e.getLsbD 1 := has_bit e (by decide)
theorem has_w (e : Word) : has e pteW = e.getLsbD 2 := has_bit e (by decide)
theorem has_x (e : Word) : has e pteX = e.getLsbD 3 := has_bit e (by decide)
theorem has_u (e : Word) : has e pteU = e.getLsbD 4 := has_bit e (by decide)
theorem has_cow (e : Word) : has e pteCow = e.getLsbD 8 := has_bit e (by decide)

theorem has_or (e f g : Word) : has e (f ||| g) = (has e f || has e g) := by
  rw [Bool.eq_iff_iff]
  simp only [has, bne_iff_ne, ne_eq, BitVec.and_or_distrib_left, BitVec.or_eq_zero_iff, Bool.or_eq_true]
  exact Decidable.not_and_iff_not_or_not

theorem isLeaf_eq (e : Word) : isLeaf e = (has e pteR || has e pteX) := has_or e pteR pteX


theorem has_rwx_of_isLeaf (h : isLeaf e = true) : has e (pteR ||| pteW ||| pteX) = true := by
  rw [isLeaf_eq, Bool.or_eq_true] at h
  rw [has_or, has_or]
  rcases h with h | h <;> simp [h]

/-! ## Reading back what `mkPte` wrote -/

/-- The flags stay clear of the page-number field. -/
def LowFlags (f : Word) : Prop := f >>> 10 = 0#64

instance (f : Word) : Decidable (LowFlags f) := inferInstanceAs (Decidable (_ = _))

theorem LowFlags.getLsbD (h : LowFlags f) (hi : 10 ≤ i) : f.getLsbD i = false := by
  have := congrArg (fun w => BitVec.getLsbD w (i - 10)) h
  simpa [Nat.add_sub_cancel' hi] using this

theorem LowFlags.of_getLsbD (h : ∀ i, 10 ≤ i → f.getLsbD i = false) : LowFlags f := by
  apply BitVec.eq_of_getLsbD_eq
  intro i _
  rw [BitVec.getLsbD_ushiftRight, h _ (by omega), BitVec.getLsbD_zero]

theorem LowFlags.or {g : Word} (hf : LowFlags f) (hg : LowFlags g) : LowFlags (f ||| g) :=
  .of_getLsbD fun i hi => by rw [BitVec.getLsbD_or, hf.getLsbD hi, hg.getLsbD hi, Bool.false_or]

theorem lowFlags_and_mask (f : Word) : LowFlags (f &&& flagMask) :=
  .of_getLsbD fun i hi => by
    have h : flagMask.getLsbD i = false := LowFlags.getLsbD (by decide) hi
    rw [BitVec.getLsbD_and, h, Bool.and_false]

theorem flagMask_getLsbD (hi : i < 10) : flagMask.getLsbD i = true := by
  have : ∀ j : Fin 10, flagMask.getLsbD j = true := by decide
  exact this ⟨i, hi⟩

theorem mkPte_getLsbD_low (pa : Nat) (flags : Word) (hi : i < 10) :
    (mkPte pa flags).getLsbD i = flags.getLsbD i := by
  simp [mkPte, BitVec.getLsbD_or, hi]

/-- The page-number field of `mkPte pa flags`. -/
theorem mkPte_ushiftRight (pa : Nat) (hb : pa < 2 ^ 64) (hf : LowFlags flags) :
    mkPte pa flags >>> 10 = BitVec.ofNat 64 (pa >>> 12) := by
  have hlt : pa >>> 12 < 2 ^ 52 := by rw [Nat.shiftRight_eq_div_pow]; omega
  apply BitVec.eq_of_getLsbD_eq
  intro i hi
  simp only [mkPte, BitVec.getLsbD_ushiftRight, BitVec.getLsbD_or, BitVec.getLsbD_shiftLeft,
    hf.getLsbD (Nat.le_add_right 10 i), Bool.or_false]
  by_cases h : 10 + i < 64
  · simp [h]
  · have : (pa >>> 12).testBit i = false :=
      Nat.testBit_lt_two_pow (Nat.lt_of_lt_of_le hlt (Nat.pow_le_pow_right (by decide) (by omega)))
    simp [BitVec.getLsbD_ofNat, this]

theorem ptePa_mkPte (ha : pa % 4096 = 0) (hb : pa < 2 ^ 64) (hf : LowFlags flags) :
    ptePa (mkPte pa flags) = pa := by
  rw [ptePa, mkPte_ushiftRight pa hb hf]
  simp only [BitVec.toNat_shiftLeft, BitVec.toNat_ofNat, Nat.shiftLeft_eq]
  omega

theorem has_mkPte (pa : Nat) (flags : Word) (hk : k < 10) :
    has (mkPte pa flags) (1#64 <<< k) = has flags (1#64 <<< k) := by
  rw [has_bit _ (by omega), has_bit _ (by omega), mkPte_getLsbD_low pa flags hk]

section MkPte
variable (pa : Nat) (flags : Word)

@[simp] theorem mkPte_v : has (mkPte pa flags) pteV = has flags pteV := has_mkPte pa flags (by decide)
@[simp] theorem mkPte_r : has (mkPte pa flags) pteR = has flags pteR := has_mkPte pa flags (by decide)
@[simp] theorem mkPte_w : has (mkPte pa flags) pteW = has flags pteW := has_mkPte pa flags (by decide)
@[simp] theorem mkPte_x : has (mkPte pa flags) pteX = has flags pteX := has_mkPte pa flags (by decide)
@[simp] theorem mkPte_u : has (mkPte pa flags) pteU = has flags pteU := has_mkPte pa flags (by decide)

end MkPte

theorem pteFlags_mkPte (pa : Nat) (hf : LowFlags flags) : pteFlags (mkPte pa flags) = flags := by
  apply BitVec.eq_of_getLsbD_eq
  intro i _
  rw [pteFlags, BitVec.getLsbD_and]
  by_cases h : i < 10
  · rw [mkPte_getLsbD_low pa flags h, flagMask_getLsbD h, Bool.and_true]
  · have hm : flagMask.getLsbD i = false := LowFlags.getLsbD (by decide) (by omega)
    rw [hm, Bool.and_false, hf.getLsbD (by omega)]

theorem has_pteFlags (e : Word) (hk : k < 10 := by decide) : has (pteFlags e) (1#64 <<< k) = has e (1#64 <<< k) := by
  rw [has_bit _ (by omega), has_bit _ (by omega), pteFlags, BitVec.getLsbD_and, flagMask_getLsbD hk,
    Bool.and_true]

@[simp] theorem has_zero (f : Word) : has 0#64 f = false := by simp [has]

theorem ne_zero_of_has (h : has e f = true) : e ≠ 0#64 := by
  rintro rfl
  rw [has_zero] at h
  exact Bool.noConfusion h

/-! ## Table pointers -/

@[simp] theorem tablePte_v (pa : Nat) : has (tablePte pa) pteV = true := by
  rw [tablePte, mkPte_v]; decide

@[simp] theorem tablePte_isLeaf (pa : Nat) : isLeaf (tablePte pa) = false := by
  rw [isLeaf_eq, tablePte, mkPte_r, mkPte_x]; decide

theorem tablePte_rwx (pa : Nat) : has (tablePte pa) (pteR ||| pteW ||| pteX) = false := by
  rw [has_or, has_or, tablePte, mkPte_r, mkPte_w, mkPte_x]; decide

theorem tablePte_ne_zero (pa : Nat) : tablePte pa ≠ 0#64 := ne_zero_of_has (tablePte_v pa)

theorem ptePa_tablePte (ha : pa % 4096 = 0) (hb : pa < 2 ^ 64) :
    ptePa (tablePte pa) = pa := ptePa_mkPte ha hb (by decide)

theorem ptePa_mod (e : Word) : ptePa e % 4096 = 0 := by
  simp only [ptePa, BitVec.toNat_shiftLeft]
  omega

theorem ptePa_lt (e : Word) : ptePa e < 2 ^ 64 := BitVec.isLt _

end OpenV
