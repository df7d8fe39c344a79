import Mathlib

/- A null-terminated singly linked list threaded through memory: `next a` is
   the successor stored in cell `a`, and `0` ends the list. -/
namespace OpenV

/-- The list that starts at cell `h`. -/
def Linked (next : Nat → Nat) : Nat → List Nat → Prop
  | h, [] => h = 0
  | h, a :: l => h = a ∧ a ≠ 0 ∧ Linked next (next a) l

theorem Linked.congr {n m : Nat → Nat} : ∀ {h : Nat} {l : List Nat}, Linked n h l →
    (∀ a ∈ l, m a = n a) → Linked m h l
  | _, [], hl, _ => hl
  | _, a :: l, ⟨e, h0, hl⟩, heq => by
    refine ⟨e, h0, ?_⟩
    rw [heq a (.head _)]
    exact hl.congr (fun b hb => heq b (.tail _ hb))

/-- Putting a cell in front of the list. -/
theorem Linked.push {n : Nat → Nat} {h a : Nat} {l : List Nat} (hl : Linked n h l) (ha : a ≠ 0)
    (hm : a ∉ l) : Linked (Function.update n a h) a (a :: l) := by
  refine ⟨rfl, ha, ?_⟩
  rw [Function.update_self]
  refine hl.congr (fun b hb => Function.update_of_ne ?_ _ _)
  rintro rfl
  exact hm hb

/-- At least `n` cells follow one another from `h` on. -/
def chainHas (next : Nat → Nat) : Nat → Nat → Bool
  | 0, _ => true
  | n + 1, h => h != 0 && chainHas next n (next h)

theorem Linked.chainHas {next : Nat → Nat} : ∀ {h : Nat} {l : List Nat}, Linked next h l →
    ∀ n, chainHas next n h = true ↔ n ≤ l.length
  | _, _, _, 0 => by simp [OpenV.chainHas]
  | h, [], hl, n + 1 => by simp [OpenV.chainHas, show h = 0 from hl]
  | h, a :: l, ⟨e, h0, hl⟩, n + 1 => by
    subst e
    simp [OpenV.chainHas, h0, hl.chainHas n]

end OpenV
