import OpenV.Ipc.Handle

/- What the operations of a handle table do to a lookup. A handle value is an id
   and a generation; it resolves when the entry of the id has that generation. -/
namespace OpenV

/-! ## Handle values -/

theorem decodeHandle_eq (handle : Nat) : decodeHandle handle = (handle % 65536, handle / 65536) := by
  rw [decodeHandle, Nat.shiftRight_eq_div_pow]
  exact congrArg (·, _) (Nat.and_two_pow_sub_one_eq_mod handle 16)

theorem encodeHandle_eq {id : Nat} (h : id < 65536) (generation : Nat) :
    encodeHandle id generation = generation * 65536 + id := by
  rw [encodeHandle, ← Nat.shiftLeft_add_eq_or_of_lt h, Nat.shiftLeft_eq]

theorem decodeHandle_encodeHandle {id : Nat} (h : id < 65536) (generation : Nat) :
    decodeHandle (encodeHandle id generation) = (id, generation) := by
  rw [decodeHandle_eq, encodeHandle_eq h]
  exact Prod.ext (by omega) (by omega)

/-- A handle value is its id and its generation. -/
theorem eq_encodeHandle {handle id generation : Nat} (h : id < 65536) :
    handle = encodeHandle id generation ↔ handle % 65536 = id ∧ handle / 65536 = generation := by
  rw [encodeHandle_eq h]
  omega

namespace HandleTable
variable {t : HandleTable} {id id' handle : Nat} {entry : HandleEntry}

/-! ## Lookup -/

/-- The table without the entry of `id`. -/
def dropId (t : HandleTable) (id : Nat) : HandleTable := { t with map := t.map.filter (·.1 != id) }

/-- `FD_CLOEXEC` is cleared. -/
def clearCloexec (t : HandleTable) (handle : Nat) : HandleTable :=
  { t with cloexec := t.cloexec.filter (· != handle) }

@[simp] theorem lookup_clearCloexec : (t.clearCloexec handle).lookup id = t.lookup id := rfl

theorem lookup_dropId : (t.dropId id).lookup id' = if id' = id then none else t.lookup id' := by
  unfold lookup dropId
  rw [List.find?_filter]
  split
  · rename_i e
    subst e
    rw [List.find?_eq_none.mpr, Option.map_none]
    intro x _
    simp
  · rename_i hne
    refine congrArg _ (congrArg (fun p => List.find? p t.map) (funext fun x => ?_))
    by_cases hx : x.1 = id'
    · simp [hx, hne]
    · simp [hx]

theorem lookup_insertId : (t.insertId id entry).lookup id' = if id' = id then some entry else t.lookup id' := by
  split
  · rename_i e
    subst e
    simp [lookup, insertId]
  · rename_i hne
    have htail : (t.dropId id).lookup id' = _ := lookup_dropId
    rw [if_neg hne] at htail
    rw [← htail]
    simp only [lookup, insertId, dropId]
    simp [Ne.symm hne]

theorem getEntry_eq : t.getEntry handle = (t.lookup (handle % 65536)).filter (·.generation == handle / 65536) := by
  rw [getEntry, decodeHandle_eq]

theorem getEntry_eq_some : t.getEntry handle = some entry ↔
    t.lookup (handle % 65536) = some entry ∧ entry.generation = handle / 65536 := by
  rw [getEntry_eq]
  simp

theorem get_eq : t.get handle = (t.getEntry handle).map (·.object) := rfl

/-- An entry is put at `id`: it is found by the one value with its generation. -/
theorem getEntry_insertId (hid : id < 65536) : (t.insertId id entry).getEntry handle =
    if handle % 65536 = id then (if handle = encodeHandle id entry.generation then some entry else none)
    else t.getEntry handle := by
  rw [getEntry_eq, lookup_insertId]
  split
  · rename_i e
    simp only [eq_encodeHandle hid, e, true_and, Option.filter_some, beq_iff_eq]
    exact if_congr eq_comm rfl rfl
  · exact getEntry_eq.symm

theorem getEntry_dropId : (t.dropId id).getEntry handle =
    if handle % 65536 = id then none else t.getEntry handle := by
  rw [getEntry_eq, lookup_dropId]
  split
  · rfl
  · exact getEntry_eq.symm

/-! ## Operations -/

theorem lowestFreeFrom_some {n : Nat} {start : Nat} (h : t.lowestFreeFrom n start = some id) :
    id < start + n ∧ t.lookup id = none := by
  induction n generalizing start with
  | zero => cases h
  | succ n ih =>
    unfold lowestFreeFrom at h
    split at h
    · obtain ⟨hlt, hfree⟩ := ih h
      exact ⟨by omega, hfree⟩
    · rename_i hnone
      cases h
      exact ⟨by omega, by simpa using hnone⟩

theorem lowestFree_some (h : t.lowestFree = some id) : id < 65536 ∧ t.lookup id = none := by
  have := lowestFreeFrom_some h
  simpa using this

/-- A free id has no generation to go on from: every new entry starts at 1. -/
theorem insertWithRights_eq (obj : KernelObject) (rights : Nat) : t.insertWithRights obj rights =
    t.lowestFree.map fun id => (encodeHandle id 1, t.insertId id ⟨obj, rights, 1⟩) := by
  unfold insertWithRights
  cases h : t.lowestFree with
  | none => simp only [Option.map_none]
  | some id =>
    obtain ⟨-, hfree⟩ := lowestFree_some h
    simp only [Option.map_some, hfree]

theorem mint_eq (entry : HandleEntry) : t.mint entry = t.lowestFree.map fun id =>
    (encodeHandle id ((entry.generation + 1) % 65536), t.insertId id entry) := by
  unfold mint
  cases h : t.lowestFree with
  | none => simp only [Option.map_none]
  | some id =>
    simp only [Option.map_some, insertEntry, decodeHandle_encodeHandle (lowestFree_some h).1]

theorem removeEntry_of_some (h : t.getEntry handle = some entry) :
    t.removeEntry handle = (some entry, (t.clearCloexec handle).dropId (handle % 65536)) := by
  obtain ⟨hlook, hgen⟩ := getEntry_eq_some.mp h
  unfold removeEntry
  simp only [decodeHandle_eq, hlook, hgen]
  rfl

theorem removeEntry_of_none (h : t.getEntry handle = none) :
    t.removeEntry handle = (none, t.clearCloexec handle) := by
  unfold removeEntry
  cases hlook : t.lookup (handle % 65536) with
  | none =>
    simp only [decodeHandle_eq, hlook]
    rfl
  | some entry =>
    have hgen : ¬entry.generation = handle / 65536 := fun hgen => by
      rw [getEntry_eq_some.mpr ⟨hlook, hgen⟩] at h
      cases h
    simp only [decodeHandle_eq, hlook, hgen]
    rfl

theorem remove_eq (t : HandleTable) (handle : Nat) :
    t.remove handle = ((t.removeEntry handle).1.map (·.object), (t.removeEntry handle).2) := by
  unfold remove removeEntry
  cases hlook : t.lookup (handle % 65536) with
  | none => simp only [decodeHandle_eq, hlook, Option.map_none]
  | some entry =>
    by_cases hgen : entry.generation = handle / 65536 <;> simp [decodeHandle_eq, hlook, hgen]

end HandleTable
end OpenV
