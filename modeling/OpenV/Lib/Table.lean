import Mathlib

/- Finite tables whose keys can be listed: a lookup function together with the
   keys it is defined on, in the order in which they were added. -/
namespace OpenV

structure Table (κ α : Type) where
  get : κ → Option α
  keys : List κ
  nodup : keys.Nodup
  mem : ∀ k, k ∈ keys ↔ (get k).isSome = true

namespace Table
variable {κ α : Type}

def empty : Table κ α where
  get _ := none
  keys := []
  nodup := List.nodup_nil
  mem _ := by simp

variable [DecidableEq κ]

/-- Change the entry at `k`, if there is one. -/
def modify (t : Table κ α) (k : κ) (f : α → α) : Table κ α where
  get q := if q = k then (t.get q).map f else t.get q
  keys := t.keys
  nodup := t.nodup
  mem q := by
    rw [t.mem]
    split <;> simp

/-- Add an entry, or replace the one that is there. -/
def insert (t : Table κ α) (k : κ) (v : α) : Table κ α where
  get q := if q = k then some v else t.get q
  keys := if (t.get k).isSome then t.keys else t.keys ++ [k]
  nodup := by
    split
    · exact t.nodup
    · rename_i h
      refine List.nodup_append.mpr ⟨t.nodup, List.nodup_singleton k, fun a ha b hb => ?_⟩
      rw [List.mem_singleton.mp hb]
      exact fun e => h ((t.mem k).mp (e ▸ ha))
  mem q := by
    by_cases hq : q = k
    · subst hq
      by_cases h : (t.get q).isSome = true <;> simp [h, t.mem]
    · by_cases h : (t.get k).isSome = true <;> simp [h, hq, t.mem]

def remove (t : Table κ α) (k : κ) : Table κ α where
  get q := if q = k then none else t.get q
  keys := t.keys.filter fun q => q ≠ k
  nodup := t.nodup.filter _
  mem q := by
    rw [List.mem_filter, t.mem]
    by_cases hq : q = k <;> simp [hq]

section
variable (t : Table κ α)

theorem get_modify (k q : κ) (f : α → α) : (t.modify k f).get q = if q = k then (t.get q).map f else t.get q := rfl

@[simp] theorem get_modify_self (k : κ) (f : α → α) : (t.modify k f).get k = (t.get k).map f := by
  rw [get_modify, if_pos rfl]

theorem get_modify_of_ne {k q : κ} (f : α → α) (h : q ≠ k) : (t.modify k f).get q = t.get q := by
  rw [get_modify, if_neg h]

theorem get_insert (k q : κ) (v : α) : (t.insert k v).get q = if q = k then some v else t.get q := rfl

theorem get_remove (k q : κ) : (t.remove k).get q = if q = k then none else t.get q := rfl

end

end Table
end OpenV
