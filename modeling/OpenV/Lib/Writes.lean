import Mathlib

/- A store under a log of writes: what a list of writes, or a part of it, leaves in
   each place. -/
namespace OpenV

open Function
variable {κ β : Type} [DecidableEq κ]

/-- The store after the writes of a log, oldest first. -/
def applyWrites (ws : List (κ × β)) (d : κ → β) : κ → β := ws.foldl (fun d w => update d w.1 w.2) d

section
variable {ws : List (κ × β)} {d : κ → β} {x : κ} {v : β}

@[simp] theorem applyWrites_nil : applyWrites [] d = d := rfl

@[simp] theorem applyWrites_cons (w : κ × β) : applyWrites (w :: ws) d = applyWrites ws (update d w.1 w.2) := rfl

theorem applyWrites_append (ws ws' : List (κ × β)) (d : κ → β) :
    applyWrites (ws ++ ws') d = applyWrites ws' (applyWrites ws d) := List.foldl_append

/-- A place that is not written keeps its value. -/
theorem applyWrites_of_notMem (h : x ∉ ws.map (·.1)) : applyWrites ws d x = d x := by
  induction ws generalizing d with
  | nil => rfl
  | cons w ws ih =>
    obtain ⟨hne, hrest⟩ := not_or.mp (mt List.mem_cons.mpr h)
    rw [applyWrites_cons, ih hrest, update_of_ne hne]

/-- A place that is written once has the value written. -/
theorem applyWrites_of_mem (hnd : (ws.map (·.1)).Nodup) (h : (x, v) ∈ ws) : applyWrites ws d x = v := by
  induction ws generalizing d with
  | nil => cases h
  | cons w ws ih =>
    obtain ⟨hw, hrest⟩ := List.nodup_cons.mp hnd
    rcases List.mem_cons.mp h with rfl | h
    · rw [applyWrites_cons, applyWrites_of_notMem hw, update_self]
    · exact ih hrest h

/-- Writing again what was partly written. -/
theorem applyWrites_redo (hnd : (ws.map (·.1)).Nodup) (m : Nat) :
    applyWrites ws (applyWrites (ws.take m) d) = applyWrites ws d := by
  funext x
  by_cases hx : x ∈ ws.map (·.1)
  · obtain ⟨⟨_, v⟩, hm, rfl⟩ := List.mem_map.mp hx
    rw [applyWrites_of_mem hnd hm, applyWrites_of_mem hnd hm]
  · have hx' : x ∉ (ws.take m).map (·.1) := fun h => by
      rw [List.map_take] at h
      exact hx (List.mem_of_mem_take h)
    rw [applyWrites_of_notMem hx, applyWrites_of_notMem hx, applyWrites_of_notMem hx']

end
end OpenV
