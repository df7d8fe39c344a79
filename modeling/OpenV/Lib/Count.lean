import Mathlib

/- Counting the members of a finite set that satisfy a test, and what happens
   to the count when the test changes at one member; the same for a sum over the
   entries of a table. -/
namespace OpenV

open Function

/-- How many members of `S` pass `p`. -/
def countWhere {ι : Type} (S : Finset ι) (p : ι → Bool) : Nat := (S.filter (p · = true)).card

section
variable {ι : Type} {S : Finset ι} {p q : ι → Bool}

theorem countWhere_congr (h : ∀ a ∈ S, p a = q a) : countWhere S p = countWhere S q := by
  unfold countWhere
  congr 1
  apply Finset.filter_congr
  intro a ha
  rw [h a ha]

theorem countWhere_eq_zero : countWhere S p = 0 ↔ ∀ a ∈ S, p a = false := by
  simp [countWhere, Finset.card_eq_zero]

theorem countWhere_pos : 0 < countWhere S p ↔ ∃ a ∈ S, p a = true := by
  rw [countWhere, Finset.card_pos]
  constructor
  · rintro ⟨a, ha⟩
    exact ⟨a, (Finset.mem_filter.mp ha).1, (Finset.mem_filter.mp ha).2⟩
  · rintro ⟨a, ha, hp⟩
    exact ⟨a, Finset.mem_filter.mpr ⟨ha, hp⟩⟩

theorem two_le_countWhere {a b : ι} (ha : a ∈ S) (hb : b ∈ S) (hne : a ≠ b) (hpa : p a = true)
    (hpb : p b = true) : 2 ≤ countWhere S p :=
  Finset.one_lt_card.mpr ⟨a, Finset.mem_filter.mpr ⟨ha, hpa⟩, b, Finset.mem_filter.mpr ⟨hb, hpb⟩, hne⟩

/-- A change of the test at one member changes the count by what it says there. -/
theorem countWhere_change {a : ι} (ha : a ∈ S) (h : ∀ b ∈ S, b ≠ a → p b = q b) :
    countWhere S q + (p a).toNat = countWhere S p + (q a).toNat := by
  classical
  have hsplit : ∀ r : ι → Bool, countWhere S r = countWhere (S.erase a) r + (r a).toNat := fun r => by
    rw [countWhere, ← Finset.insert_erase ha, Finset.filter_insert]
    cases hr : r a <;> simp [countWhere]
  have hrest : countWhere (S.erase a) p = countWhere (S.erase a) q :=
    countWhere_congr fun b hb => h b (Finset.mem_of_mem_erase hb) (Finset.ne_of_mem_erase hb)
  rw [hsplit p, hsplit q]
  omega

end

/-- Replacing one entry of a table replaces its summand. -/
theorem sum_update {α : Type} (f : α → Nat) (t : Nat → α) {n i : Nat} (hi : i < n) (a : α) :
    ∑ x ∈ Finset.range n, f (update t i a x) + f (t i) = ∑ x ∈ Finset.range n, f (t x) + f a := by
  have hm : i ∈ Finset.range n := Finset.mem_range.mpr hi
  have hrest : ∀ x ∈ (Finset.range n).erase i, f (update t i a x) = f (t x) := fun x hx => by
    rw [update_of_ne (Finset.ne_of_mem_erase hx)]
  rw [← Finset.add_sum_erase _ _ hm, ← Finset.add_sum_erase _ (fun x => f (t x)) hm, Finset.sum_congr rfl hrest,
    update_self]
  omega

end OpenV
