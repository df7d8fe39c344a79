import OpenV.Ipc.HandleSpec
import OpenV.Lib.Run

/- Use after close. The generation of a handle is to keep a closed value from
   resolving to whatever takes its slot. It is stored in the entry, and the entry
   goes when the handle is closed, so every slot starts again at generation 1.
   The history of a table records which values have been closed and for which
   object each had been issued. -/
namespace OpenV

open HandleTable

/-- A handle table with its history. -/
structure Slots where
  table : HandleTable := {}
  /-- the values closed so far, each with the object it was issued for -/
  closed : List (Nat × KernelObject) := []

/-- The operations on a handle table; `send` and `receive` are the two halves of a transfer. -/
inductive HandleOp where
  | insert (obj : KernelObject)
  | insertWithRights (obj : KernelObject) (rights : Nat)
  | dup (src : Nat)
  | dup2 (src dst : Nat)
  | remove (handle : Nat)
  | send (handle : Nat)
  | receive (entry : HandleEntry)

open HandleOp

namespace Slots

/-- The table takes a new entry, unless it is full. -/
def grow (st : Slots) (r : Option (Nat × HandleTable)) : Res Unit × Slots :=
  match r with
  | some (_, t) => (.ok (), { st with table := t })
  | none => (.panic "handle table full (65536 handles exhausted)", st)

/-- The value `handle` is closed. -/
def close (st : Slots) (handle : Nat) (t : HandleTable) : Slots where
  table := t
  closed := match st.table.get handle with
    | some obj => (handle, obj) :: st.closed
    | none => st.closed

/-- The entry at `id` makes way for another. -/
def overwrite (st : Slots) (id : Nat) (t : HandleTable) : Slots where
  table := t
  closed := match st.table.lookup id with
    | some old => (encodeHandle id old.generation, old.object) :: st.closed
    | none => st.closed

/-- No value that was closed resolves to an object it was not issued for. -/
def Protected (st : Slots) : Prop :=
  ∀ handle obj, (handle, obj) ∈ st.closed → ∀ obj', st.table.get handle = some obj' → obj' = obj

/-- If the value was closed before, it had been issued for `obj`. -/
def OnlyFor (st : Slots) (handle : Nat) (obj : KernelObject) : Prop :=
  ∀ obj', (handle, obj') ∈ st.closed → obj' = obj

end Slots

def HandleOp.run : HandleOp → Cmd Slots Unit
  | .insert obj => fun st => st.grow (st.table.insert obj)
  | .insertWithRights obj rights => fun st => st.grow (st.table.insertWithRights obj rights)
  | .dup src => fun st =>
    match st.table.dup src with
    | some r => st.grow r
    | none => (.ok (), st)
  | .dup2 src dst => fun st =>
    match st.table.dup2 src dst with
    | some t => (.ok (), st.overwrite (decodeHandle dst).1 t)
    | none => (.ok (), st)
  | .remove handle => fun st => (.ok (), st.close handle (st.table.remove handle).2)
  | .send handle => fun st => (.ok (), st.close handle (st.table.removeEntry handle).2)
  | .receive entry => fun st => st.grow (st.table.mint entry)

/-- The value under which a step puts an entry has not been closed for another object. -/
def HandleOp.Fresh (st : Slots) : HandleOp → Prop
  | .insert obj | .insertWithRights obj _ => ∀ id, st.table.lowestFree = some id → st.OnlyFor (encodeHandle id 1) obj
  | .dup src => ∀ entry, st.table.getEntry src = some entry → ∀ id, st.table.lowestFree = some id →
      st.OnlyFor (encodeHandle id 1) entry.object
  | .dup2 src dst => ∀ entry, st.table.getEntry src = some entry → st.OnlyFor dst entry.object ∧
      ∀ obj, st.table.get dst = some obj → obj = entry.object
  | .receive entry => ∀ id, st.table.lowestFree = some id → st.OnlyFor (encodeHandle id entry.generation) entry.object
  | .remove _ | .send _ => True

namespace Slots
variable {st : Slots} {id : Nat} {entry : HandleEntry} {r : Option (Nat × HandleTable)}

/-- An entry is put at `id`. Every other slot is as it was, so the values closed elsewhere stay closed, and the
entry is found by one value only. -/
theorem protected_put (t : HandleTable) (entry : HandleEntry) (closed : List (Nat × KernelObject)) (hid : id < 65536)
    (hold : ∀ handle obj, (handle, obj) ∈ closed → handle % 65536 ≠ id →
      ∀ obj', t.get handle = some obj' → obj' = obj) :
    OnlyFor ⟨t, closed⟩ (encodeHandle id entry.generation) entry.object ↔
      Protected ⟨t.insertId id entry, closed⟩ := by
  refine ⟨fun hf handle obj hc obj' hg => ?_, fun hP obj' hc => ?_⟩
  · have hg : ((t.insertId id entry).getEntry handle).map (·.object) = some obj' := hg
    rw [getEntry_insertId hid] at hg
    split_ifs at hg with hslot hval
    · cases hg
      rw [hval] at hc
      exact (hf obj hc).symm
    · cases hg
    · exact hold handle obj hc hslot obj' hg
  · have hslot : encodeHandle id entry.generation % 65536 = id := ((eq_encodeHandle hid).mp rfl).1
    refine (hP _ _ hc entry.object ?_).symm
    show ((t.insertId id entry).getEntry _).map (·.object) = _
    rw [getEntry_insertId hid, if_pos hslot, if_pos rfl]
    rfl

/-- A table takes an entry at its lowest free id. -/
theorem grow_ends (h : st.Protected) {value : Nat → Nat} (hr : r = st.table.lowestFree.map fun id =>
      (value id, st.table.insertId id entry)) {E : Slots → Prop} :
    Cmd.Ends (fun _ st' => (∀ id, st.table.lowestFree = some id →
      st.OnlyFor (encodeHandle id entry.generation) entry.object) ↔ st'.Protected) E (fun _ => True) (st.grow r) := by
  subst hr
  cases hfree : st.table.lowestFree with
  | none => trivial
  | some id =>
    have hput := protected_put st.table entry st.closed (lowestFree_some hfree).1
      fun handle obj hc _ => h handle obj hc
    refine Iff.trans ⟨fun hf => hf id rfl, fun hf id' e => ?_⟩ hput
    cases e
    exact hf

/-- A value is closed: its slot is empty. -/
theorem close_protected (h : st.Protected) (handle : Nat) : (st.close handle (st.table.removeEntry handle).2).Protected := by
  intro value obj hc obj' hg
  cases he : st.table.getEntry handle with
  | none =>
    have hnone : st.table.get handle = none := by rw [get_eq, he, Option.map_none]
    simp only [close, hnone, removeEntry_of_none he] at hc hg
    exact h value obj hc obj' hg
  | some entry =>
    have hsome : st.table.get handle = some entry.object := by rw [get_eq, he, Option.map_some]
    simp only [close, hsome, removeEntry_of_some he, get_eq, getEntry_dropId] at hc hg
    split_ifs at hg with hslot
    · cases hg
    · rcases List.mem_cons.mp hc with e | hc
      · cases e
        exact absurd rfl hslot
      · exact h value obj hc obj' hg

theorem mem_overwrite (hid : id < 65536) {t : HandleTable} {handle : Nat} {obj : KernelObject} :
    (handle, obj) ∈ (st.overwrite id t).closed ↔
      (handle, obj) ∈ st.closed ∨ handle % 65536 = id ∧ st.table.get handle = some obj := by
  rw [get_eq, getEntry_eq]
  cases hlook : st.table.lookup id with
  | none =>
    simp only [overwrite, hlook]
    refine ⟨.inl, fun hc => hc.elim (fun hc => hc) fun hg => ?_⟩
    rw [hg.1, hlook] at hg
    cases hg.2
  | some old =>
    simp only [overwrite, hlook, List.mem_cons, Prod.mk.injEq, eq_encodeHandle hid]
    rw [or_comm]
    refine or_congr_right ⟨fun hv => ⟨hv.1.1, ?_⟩, fun hv => ?_⟩
    · simp [hv.1.1, hlook, hv.1.2, hv.2]
    · obtain ⟨hslot, hg⟩ := hv
      simp only [hslot, hlook, Option.filter_some, beq_iff_eq] at hg
      split_ifs at hg with hgen
      · cases hg
        exact ⟨⟨hslot, hgen.symm⟩, rfl⟩
      · cases hg

/-- `dup2` replaces what is at the id of its target. -/
theorem overwrite_protected (h : st.Protected) {dst : Nat} (entry : HandleEntry) (cloexec : List Nat)
    (hgen : entry.generation = dst / 65536) :
    (st.OnlyFor dst entry.object ∧ ∀ obj, st.table.get dst = some obj → obj = entry.object) ↔
      (st.overwrite (dst % 65536) { st.table.insertId (dst % 65536) entry with cloexec := cloexec }).Protected := by
  have hid : dst % 65536 < 65536 := Nat.mod_lt _ (by decide)
  have hdst : encodeHandle (dst % 65536) entry.generation = dst := by
    rw [encodeHandle_eq hid]
    omega
  have hput := protected_put st.table entry (st.overwrite (dst % 65536) st.table).closed hid
    fun handle obj hc hslot => (mem_overwrite hid).mp hc |>.elim (h handle obj) fun hs => absurd hs.1 hslot
  rw [hdst] at hput
  refine Iff.trans ⟨fun hf obj hc => ?_, fun hf => ⟨fun obj hc => ?_, fun obj hg => ?_⟩⟩ hput
  · exact (mem_overwrite hid).mp hc |>.elim (hf.1 obj) fun hs => hf.2 obj hs.2
  · exact hf obj ((mem_overwrite hid).mpr (.inl hc))
  · exact hf obj ((mem_overwrite hid).mpr (.inr ⟨rfl, hg⟩))

end Slots

theorem HandleOp.run_protected {st : Slots} (op : HandleOp) (h : st.Protected) :
    op.run.endsIn (fun st' => op.Fresh st ↔ st'.Protected) st := by
  cases op with
  | insert obj =>
    rw [Cmd.endsIn_of_eq rfl]
    exact Slots.grow_ends h (HandleTable.insertWithRights_eq obj _)
  | insertWithRights obj rights =>
    rw [Cmd.endsIn_of_eq rfl]
    exact Slots.grow_ends h (HandleTable.insertWithRights_eq obj rights)
  | dup src =>
    cases he : st.table.getEntry src with
    | none =>
      rw [Cmd.endsIn_of_eq (show run (.dup src) st = (.ok (), st) by simp [run, HandleTable.dup, he])]
      refine ⟨fun _ => h, fun _ entry e => ?_⟩
      rw [he] at e
      cases e
    | some entry =>
      rw [Cmd.endsIn_of_eq (show run (.dup src) st = st.grow (st.table.insert entry.object) by
        simp [run, HandleTable.dup, he])]
      have hfresh : HandleOp.Fresh st (.dup src) ↔ HandleOp.Fresh st (.insert entry.object) := by
        simp only [HandleOp.Fresh, he, Option.some.injEq, forall_eq']
      rw [hfresh]
      exact Slots.grow_ends h (HandleTable.insertWithRights_eq entry.object _)
  | dup2 src dst =>
    cases he : st.table.getEntry src with
    | none =>
      rw [Cmd.endsIn_of_eq (show run (.dup2 src dst) st = (.ok (), st) by simp [run, HandleTable.dup2, he])]
      refine ⟨fun _ => h, fun _ entry e => ?_⟩
      rw [he] at e
      cases e
    | some entry =>
      rw [Cmd.endsIn_of_eq (show run (.dup2 src dst) st = (.ok (), st.overwrite (dst % 65536)
        { st.table.insertId (dst % 65536) { entry with generation := dst / 65536 } with
          cloexec := st.table.cloexec.filter (· != dst) }) by
        simp [run, HandleTable.dup2, he, decodeHandle_eq])]
      have hput := Slots.overwrite_protected h { entry with generation := dst / 65536 }
        (st.table.cloexec.filter (· != dst)) rfl
      refine Iff.trans ?_ hput
      simp only [HandleOp.Fresh, he, Option.some.injEq, forall_eq']
  | remove handle =>
    rw [Cmd.endsIn_of_eq rfl]
    refine ⟨fun _ => ?_, fun _ => trivial⟩
    rw [HandleTable.remove_eq]
    exact Slots.close_protected h handle
  | send handle =>
    rw [Cmd.endsIn_of_eq rfl]
    exact ⟨fun _ => Slots.close_protected h handle, fun _ => trivial⟩
  | receive entry =>
    rw [Cmd.endsIn_of_eq rfl]
    exact Slots.grow_ends h (HandleTable.mint_eq entry)

/-- In a run from any protected table, closed values stay closed throughout exactly if every step puts its entry
under a value that has not been closed for another object. -/
theorem closed_stay_closed {st : Slots} {ops : List HandleOp} (h : st.Protected) :
    Along run (fun op st _ => op.Fresh st) ops st ↔ Along run (fun _ _ st' => st'.Protected) ops st :=
  along_iff (fun op _ h => op.run_protected h) h

/-- A table without a history. -/
theorem protected_of_no_history (t : HandleTable) : Slots.Protected ⟨t, []⟩ := nofun

/-- The slot of a closed handle is taken by the same object. -/
theorem closed_stay_closed_same : Along run (fun _ _ st' => st'.Protected)
    [.insert (.vmo 0), .remove 65536, .insert (.vmo 0)] {} := by
  refine (closed_stay_closed (protected_of_no_history {})).mp ⟨?_, trivial, ?_, trivial⟩
  · intro id _ obj hc
    cases hc
  · intro id hid obj hc
    have hc : (encodeHandle id 1, obj) ∈ [(65536, KernelObject.vmo 0)] := hc
    simp only [List.mem_singleton, Prod.mk.injEq] at hc
    exact hc.2

/-- The slot of a closed handle is taken by another object: the closed value resolves to it. -/
theorem closed_resolves : ¬Along run (fun _ _ st' => st'.Protected)
    [.insert (.vmo 0), .remove 65536, .insert (.vmo 1)] {} := by
  intro h
  obtain ⟨-, -, hlast, -⟩ := h
  have heq := hlast 65536 (.vmo 0) (List.mem_singleton.mpr rfl) (.vmo 1) rfl
  cases heq

end OpenV
