import OpenV.Ipc.Transfer
import OpenV.Kernel.Ownership

/- Rights. Copies of a handle and transfers keep within the rights of the handle
   they start from, except `dup` and the `F_DUPFD` command, which give all rights
   whatever those of the original. And `sys_vmo_map` asks for no right at all: what
   it maps writable depends on its protection argument only. -/
namespace OpenV

open Rights HandleTable

/-! ## The calls on a table -/

/-- `sys_dup`: the result and the table; `none` is the panic of a full table. -/
def sysDup (t : HandleTable) (arg0 : Nat) : Option (Nat × HandleTable) :=
  let oldFd := arg0 % 2 ^ 32
  match t.getEntry oldFd with
  | none => some (EBADF, t)
  | some entry =>
    if contains entry.rights duplicate then
      match t.dup oldFd with
      | some r => r
      | none => some (EBADF, t)
    else some (EACCES, t)

/-- `sys_dup2`. -/
def sysDup2 (t : HandleTable) (arg0 arg1 : Nat) : Nat × HandleTable :=
  let oldFd := arg0 % 2 ^ 32
  let newFd := arg1 % 2 ^ 32
  if oldFd = newFd then (newFd, t)
  else
    match t.getEntry oldFd with
    | none => (EBADF, t)
    | some entry =>
      if contains entry.rights duplicate then
        match t.dup2 oldFd newFd with
        | some t' => (newFd, t')
        | none => (EBADF, t)
      else (EACCES, t)

/-- The loop of `F_DUPFD`: the first value from `newFd` on that does not resolve, `none` when the
counter overflows. A round passes over an entry, so `n` is the number of entries and one. -/
def dupFdFrom (t : HandleTable) : Nat → Nat → Option Nat
  | 0, newFd => some newFd
  | n + 1, newFd =>
    if (t.get newFd).isSome then if newFd + 1 = 2 ^ 32 then none else dupFdFrom t n (newFd + 1) else some newFd

/-- `sys_fcntl` with `F_DUPFD`; no right is asked for. -/
def sysFcntlDupFd (t : HandleTable) (arg0 arg2 : Nat) : Option (Nat × HandleTable) :=
  match t.get (arg0 % 2 ^ 32) with
  | none => some (EBADF, t)
  | some obj => (dupFdFrom t (t.map.length + 1) (arg2 % 2 ^ 32)).map fun newFd => (newFd, t.insertAt newFd obj)

/-- `sys_handle_duplicate`. -/
def sysHandleDuplicate (t : HandleTable) (handle rights : Nat) : Option (Nat × HandleTable) :=
  match t.getEntry (handle % 2 ^ 32) with
  | none => some (EBADF, t)
  | some entry =>
    let reqRights := rights % 2 ^ 32 &&& all
    if contains entry.rights duplicate = false then some (EACCES, t)
    else if contains entry.rights reqRights = false then some (EACCES, t)
    else t.insertWithRights entry.object reqRights

/-! ## The handles of all processes -/

/-- The handle tables by process, and the entries on their way through channels. -/
structure Caps where
  tables : Nat → HandleTable
  inFlight : List (List HandleEntry) := []

inductive CapOp where
  | dup (pid fd : Nat)
  | dup2 (pid oldFd newFd : Nat)
  | dupFd (pid fd minFd : Nat)
  | handleDuplicate (pid handle rights : Nat)
  | send (pid : Nat) (handles : List Nat)
  | receive (pid i : Nat)
  | fork (parent child : Nat)

namespace Caps

def setTable (st : Caps) (pid : Nat) (t : HandleTable) : Caps := { st with tables := Function.update st.tables pid t }

/-- The table of `pid` becomes that of the result, unless the call has panicked. -/
def put (st : Caps) (pid : Nat) (r : Option (Nat × HandleTable)) : Res Unit × Caps :=
  match r with
  | some (_, t) => (.ok (), st.setTable pid t)
  | none => (.panic tableFull, st)

end Caps

def CapOp.run : CapOp → Cmd Caps Unit
  | .dup pid fd => fun st => st.put pid (sysDup (st.tables pid) fd)
  | .dup2 pid oldFd newFd => fun st => st.put pid (some (sysDup2 (st.tables pid) oldFd newFd))
  | .dupFd pid fd minFd => fun st => st.put pid (sysFcntlDupFd (st.tables pid) fd minFd)
  | .handleDuplicate pid handle rights => fun st => st.put pid (sysHandleDuplicate (st.tables pid) handle rights)
  | .send pid handles => fun st =>
    match hasRepeat handles, checkHandles (st.tables pid) handles with
    | true, _ | _, .error _ => (.ok (), st)
    | false, .ok () =>
      (.ok (), { st.setTable pid (takeEntries (st.tables pid) handles).2 with
        inFlight := st.inFlight ++ [(takeEntries (st.tables pid) handles).1] })
  | .receive pid i => fun st =>
    match st.inFlight[i]? with
    | none => (.ok (), st)
    | some entries =>
      match mintAll (st.tables pid) entries with
      | none => (.panic tableFull, st)
      | some (_, t) => (.ok (), { st.setTable pid t with inFlight := st.inFlight.eraseIdx i })
  | .fork parent child => fun st => (.ok (), st.setTable child (st.tables parent))

/-! ## Rights do not grow -/

/-- The handle to `o` has no right beyond `r`. -/
def HandleEntry.Within (o : KernelObject) (r : Nat) (entry : HandleEntry) : Prop :=
  entry.object = o → contains r entry.rights = true

def HandleTable.Within (o : KernelObject) (r : Nat) (t : HandleTable) : Prop :=
  ∀ id entry, t.lookup id = some entry → entry.Within o r

/-- No handle to `o` has a right beyond `r`. -/
structure Caps.Within (o : KernelObject) (r : Nat) (st : Caps) : Prop where
  tables : ∀ pid, (st.tables pid).Within o r
  inFlight : ∀ entries ∈ st.inFlight, ∀ entry ∈ entries, entry.Within o r

/-- `dup` and `F_DUPFD` make no copy of a handle to `o`, or all rights are allowed anyway. -/
def CapOp.Confined (o : KernelObject) (r : Nat) (st : Caps) : CapOp → Prop
  | .dup pid fd => ∀ entry, (st.tables pid).getEntry (fd % 2 ^ 32) = some entry → entry.object = o →
      contains entry.rights duplicate = true → contains r all = true
  | .dupFd pid fd _ => (st.tables pid).get (fd % 2 ^ 32) = some o → contains r all = true
  | _ => True

theorem Rights.contains_trans {a b c : Nat} (h : contains a b = true) (h' : contains b c = true) :
    contains a c = true := by
  simp only [contains, beq_iff_eq] at h h' ⊢
  calc a &&& c = a &&& (b &&& c) := by rw [h']
    _ = (a &&& b) &&& c := (Nat.land_assoc ..).symm
    _ = c := by rw [h, h']

section Within
variable {o : KernelObject} {r : Nat} {t t' : HandleTable} {id : Nat} {entry : HandleEntry} {st : Caps}

theorem HandleTable.Within.insertId (h : t.Within o r) (he : entry.Within o r) : (t.insertId id entry).Within o r := by
  intro id' e hl
  rw [lookup_insertId] at hl
  split at hl
  · cases hl
    exact he
  · exact h id' e hl

variable {handle rights pid fd n : Nat} {obj : KernelObject}

theorem HandleTable.Within.getEntry (h : t.Within o r) (he : t.getEntry handle = some entry) :
    entry.Within o r := h _ _ (getEntry_eq_some.mp he).1

theorem HandleTable.Within.insertWithRights (h : t.Within o r) (he : HandleEntry.Within o r ⟨obj, rights, 1⟩)
    {x : Nat × HandleTable} (hx : t.insertWithRights obj rights = some x) : x.2.Within o r := by
  rw [insertWithRights_eq, Option.map_eq_some_iff] at hx
  obtain ⟨id, -, rfl⟩ := hx
  exact h.insertId he

/-- What is taken from a table leaves it, and is what the table had. -/
theorem HandleTable.Within.takeEntries : ∀ {t : HandleTable}, t.Within o r → ∀ hs : List Nat,
    (takeEntries t hs).2.Within o r ∧ ∀ entry ∈ (takeEntries t hs).1, entry.Within o r
  | _, h, [] => ⟨h, nofun⟩
  | t, h, x :: hs => by
    cases he : t.getEntry x with
    | none =>
      obtain ⟨h1, h2⟩ := HandleTable.Within.takeEntries (t := t.clearCloexec x) h hs
      simp only [OpenV.takeEntries, HandleTable.removeEntry_of_none he]
      exact ⟨h1, by simpa using h2⟩
    | some entry =>
      have hdrop : ((t.clearCloexec x).dropId (x % 65536)).Within o r := by
        intro id e hl
        rw [lookup_dropId] at hl
        split at hl
        · cases hl
        · exact h id e hl
      obtain ⟨h1, h2⟩ := hdrop.takeEntries hs
      simp only [OpenV.takeEntries, HandleTable.removeEntry_of_some he]
      refine ⟨h1, fun e hm => ?_⟩
      simp only [Option.toList_some, List.cons_append, List.mem_cons] at hm
      rcases hm with rfl | hm
      · exact h.getEntry he
      · exact h2 e hm

theorem HandleTable.Within.mintAll : ∀ {entries : List HandleEntry} {hs : List Nat} {t t' : HandleTable}, t.Within o r →
    (∀ entry ∈ entries, entry.Within o r) → mintAll t entries = some (hs, t') → t'.Within o r
  | [], _, _, _, h, _, hm => by
    cases hm
    exact h
  | e :: entries, _, t, _, h, he, hm => by
    simp only [OpenV.mintAll, HandleTable.mint_eq, Option.bind_eq_bind, Option.bind_eq_some_iff,
      Option.map_eq_some_iff] at hm
    obtain ⟨_, ⟨newId, -, rfl⟩, ⟨_, t2⟩, hrest, hpure⟩ := hm
    cases hpure
    exact HandleTable.Within.mintAll (h.insertId (he e (.head _)))
      (fun e' hm' => he e' (.tail _ hm')) hrest

theorem Caps.Within.setTable (h : st.Within o r) (ht : t.Within o r) : (st.setTable pid t).Within o r := by
  refine ⟨fun pid' => ?_, h.inFlight⟩
  by_cases e : pid' = pid
  · subst e
    simpa [Caps.setTable] using ht
  · simpa [Caps.setTable, Function.update_of_ne e] using h.tables pid'

/-- A step that replaces the table of a process. -/
theorem Caps.Within.put {C : Prop} (h : st.Within o r) {x : Option (Nat × HandleTable)}
    (hx : ∀ n t, x = some (n, t) → (C ↔ t.Within o r)) :
    Cmd.Ends (fun _ st' => C ↔ st'.Within o r) (fun st' => C ↔ st'.Within o r) (fun _ => True) (st.put pid x) := by
  rcases x with _ | ⟨n, t⟩
  · trivial
  · refine (hx n t rfl).trans ⟨h.setTable, fun ht => ?_⟩
    simpa [Caps.setTable] using ht.tables pid

/-- A handle with all rights is put in. -/
theorem HandleTable.Within.insertAll (h : t.Within o r) {generation : Nat} :
    (t.insertId id ⟨obj, all, generation⟩).Within o r ↔ (obj = o → contains r all = true) := by
  refine ⟨fun ht => ht id ⟨obj, all, generation⟩ (by rw [lookup_insertId, if_pos rfl]), fun he => h.insertId he⟩

theorem sysDup_within (h : t.Within o r) (hx : sysDup t fd = some (n, t')) :
    (∀ entry, t.getEntry (fd % 2 ^ 32) = some entry → entry.object = o →
      contains entry.rights duplicate = true → contains r all = true) ↔ t'.Within o r := by
  unfold sysDup at hx
  dsimp only at hx
  cases he : t.getEntry (fd % 2 ^ 32) with
  | none =>
    rw [he] at hx
    cases hx
    exact ⟨fun _ => h, nofun⟩
  | some entry =>
    simp only [he] at hx
    split at hx
    · rename_i hdup
      simp only [HandleTable.dup, he, Option.map_some, HandleTable.insert, HandleTable.insertWithRights_eq,
        Option.map_eq_some_iff] at hx
      obtain ⟨newId, -, -, rfl⟩ := hx
      rw [h.insertAll]
      exact ⟨fun hc ho => hc entry rfl ho hdup, fun hc e hs ho _ => by cases hs; exact hc ho⟩
    · rename_i hdup
      cases hx
      exact ⟨fun _ => h, fun _ e hs _ hd => by cases hs; exact absurd hd hdup⟩

theorem sysFcntlDupFd_within (h : t.Within o r) {minFd : Nat} (hx : sysFcntlDupFd t fd minFd = some (n, t')) :
    (t.get (fd % 2 ^ 32) = some o → contains r all = true) ↔ t'.Within o r := by
  unfold sysFcntlDupFd at hx
  cases he : t.get (fd % 2 ^ 32) with
  | none =>
    rw [he] at hx
    cases hx
    exact ⟨fun _ => h, nofun⟩
  | some obj =>
    simp only [he, Option.map_eq_some_iff] at hx
    obtain ⟨newFd, -, -, rfl⟩ := hx
    rw [insertAt, h.insertAll, Option.some_inj]

theorem sysDup2_within (h : t.Within o r) (oldFd newFd : Nat) : (sysDup2 t oldFd newFd).2.Within o r := by
  unfold sysDup2
  dsimp only
  split
  · exact h
  · cases he : t.getEntry (oldFd % 2 ^ 32) with
    | none => exact h
    | some entry =>
      simp only [dup2, he]
      split
      · have hold : entry.Within o r := h.getEntry he
        have hcopy : HandleEntry.Within o r { entry with generation := (decodeHandle (newFd % 2 ^ 32)).2 } := hold
        exact h.insertId hcopy
      · exact h

theorem sysHandleDuplicate_within (h : t.Within o r) (hx : sysHandleDuplicate t handle rights = some (n, t')) :
    t'.Within o r := by
  unfold sysHandleDuplicate at hx
  cases he : t.getEntry (handle % 2 ^ 32) with
  | none =>
    rw [he] at hx
    cases hx
    exact h
  | some entry =>
    simp only [he] at hx
    split at hx
    · cases hx
      exact h
    · split at hx
      · cases hx
        exact h
      · rename_i hreq
        have hle := Bool.eq_true_of_not_eq_false hreq
        exact h.insertWithRights (fun ho => contains_trans (h.getEntry he ho) hle) hx

/-- The condition on a step is exactly what it needs to keep within the rights. -/
theorem CapOp.run_within (op : CapOp) (h : st.Within o r) :
    op.run.endsIn (fun st' => op.Confined o r st ↔ st'.Within o r) st := by
  have kept : ∀ {st' : Caps}, st'.Within o r → (True ↔ st'.Within o r) := fun hw => ⟨fun _ => hw, fun _ => trivial⟩
  rw [Cmd.endsIn_of_eq rfl]
  cases op with
  | dup pid fd => exact h.put fun n t hx => sysDup_within (h.tables pid) hx
  | dup2 pid oldFd newFd =>
    exact kept (h.setTable (sysDup2_within (h.tables pid) oldFd newFd))
  | dupFd pid fd minFd => exact h.put fun n t hx => sysFcntlDupFd_within (h.tables pid) hx
  | handleDuplicate pid handle rights =>
    exact h.put fun n t hx => ⟨fun _ => sysHandleDuplicate_within (h.tables pid) hx, fun _ => trivial⟩
  | send pid handles =>
    simp only [CapOp.run]
    split
    · exact kept h
    · exact kept h
    · obtain ⟨h1, h2⟩ := (h.tables pid).takeEntries handles
      refine kept ⟨(h.setTable h1).tables, fun entries hm => ?_⟩
      rcases List.mem_append.mp hm with hm | hm
      · exact h.inFlight entries hm
      · rw [List.mem_singleton.mp hm]
        exact h2
  | receive pid i =>
    simp only [CapOp.run]
    split
    · exact kept h
    · rename_i entries hi
      split
      · trivial
      · rename_i hs t hm
        have ht := (h.tables pid).mintAll (h.inFlight entries (List.mem_of_getElem? hi)) hm
        exact kept ⟨(h.setTable ht).tables, fun es hes => h.inFlight es (List.mem_of_mem_eraseIdx hes)⟩
  | fork parent child => exact kept (h.setTable (h.tables parent))

end Within

/-! ## Mapping a memory object -/

/-- No condition on leaves, except that only user pages are copy-on-write. -/
def anyLeaf : Policy where
  leafOk := fun fl => has fl pteCow = true → has fl pteU = true
  priv := False
  strict := False
  kern := fun _ => False
  frozen := fun _ => False
  image := fun _ _ => 0#64
  entries := fun _ => 0#64

instance (fl : Word) : Decidable (anyLeaf.leafOk fl) := inferInstanceAs (Decidable (_ → _))

theorem anyLeaf_serves : anyLeaf.Serves where
  faults := {
    closed := {
      shared := fun fl m h => cow_user_shared m h
      uncow := fun fl h hc => ⟨h hc, cow_user_uncow fl⟩
      kern := .inr fun _ h => h }
    data := by decide
    code := by decide }
  shared := fun h => h
  plain := by decide

theorem anyLeaf_boots (n : Nat) : anyLeaf.Boots n where
  rw := by decide
  rx := by decide
  kern := .inr ⟨fun h => h, fun _ h => h⟩
  frozen := fun _ h => h.elim
  entries := fun h => h.elim

/-- Every writable user entry of `k'` is as it was in `k`. -/
def NoNewWritable (k k' : Kern) : Prop :=
  ∀ pid q, k'.procs pid = some q → ∀ va, 4 ≤ vpn va 2 →
    has (leafAt k'.mm q.root (indices va)) pteW = true →
      leafAt k'.mm q.root (indices va) = leafAt k.mm q.root (indices va)

/-- The current process has `handle` without the right to write. -/
def LacksWrite (k : Kern) (handle : Nat) : Prop :=
  ∃ q entry, k.currentProc = some q ∧ q.fds.getEntry (handle % 2 ^ 32) = some entry ∧
    contains entry.rights write = false

variable {prot : Nat} {k : Kern}

theorem protFlags_w (h : prot &&& 2 = 0) : has (protFlags prot) pteW = false := by
  unfold protFlags
  rw [if_neg (show ¬prot &&& 2 ≠ 0 from fun hne => hne h)]
  split_ifs <;> decide

section Vmo
variable {p : Policy} {k k' : Kern} {g : Ghost}

theorem setCurrent_root {q q' r : Process} {pid : Nat} (hq : k.currentProc = some q) (hroot : q'.root = q.root)
    (hr : (k.setCurrent q').procs pid = some r) : ∃ r0, k.procs pid = some r0 ∧ r0.root = r.root := by
  rcases setProc_cases hr with ⟨rfl, rfl⟩ | ⟨-, hr⟩
  · exact ⟨q, hq, hroot.symm⟩
  · exact ⟨r, hr, rfl⟩

/-- What `sys_vmo_map` maps is writable by its protection argument only. -/
theorem VmoMapDone.noNewWritable {handle vaHint mapSize prot : Nat} (h : KInv p [] k g)
    (hd : VmoMapDone p k g handle vaHint mapSize prot k') (hprot : prot &&& 2 = 0) : NoNewWritable k k' := by
  intro pid r hr va hva hw
  cases hd with
  | refused e => rw [e]
  | reserved q hq e =>
    rw [e]
    rfl
  | mapped q id v g' hq hh hv hm =>
    rw [hm.same] at hr
    obtain ⟨r0, hr0, hroot⟩ := setCurrent_root hq (vmoMapVa_root ..) hr
    have hrole : g.role r.root = .tab 2 none := hroot ▸ h.root hr0
    rcases hm.leaf hrole (userIx_indices hva) with e | ⟨j, pa, -, -, -, e⟩
    · exact e
    · rw [e, mkPte_w, has_or_left, protFlags_w hprot] at hw
      exact absurd hw (by decide)

end Vmo

/-- `sys_handle_duplicate` of the current process. -/
def Kern.handleDuplicate (k : Kern) (handle rights : Nat) : Kern :=
  match k.currentProc with
  | none => k
  | some q =>
    match sysHandleDuplicate q.fds handle rights with
    | none => k
    | some (_, fds) => k.setCurrent { q with fds := fds }

theorem KInv.handleDuplicate {p : Policy} {g : Ghost} (h : KInv p [] k g) (handle rights : Nat) :
    KInv p [] (k.handleDuplicate handle rights) g := by
  unfold Kern.handleDuplicate
  cases hq : k.currentProc with
  | none => exact h
  | some q =>
    dsimp only
    split
    · exact h
    · exact h.setProc hq rfl

theorem mm_handleDuplicate (k : Kern) (handle rights : Nat) : (k.handleDuplicate handle rights).mm = k.mm := by
  unfold Kern.handleDuplicate
  split
  · rfl
  · split <;> rfl

/-- A memory object that can be read and copied. -/
def readTable : HandleTable := ({} : HandleTable).insertId 0 ⟨.vmo 0, read ||| duplicate, 1⟩

theorem readTable_within : (Caps.mk (fun _ => readTable) []).Within (.vmo 0) (Rights.read ||| Rights.duplicate) := by
  have hempty : ({} : HandleTable).Within (.vmo 0) (Rights.read ||| Rights.duplicate) := nofun
  exact ⟨fun _ => hempty.insertId fun _ => by decide, nofun⟩

/-- A process makes a memory object; the handle 65537 to it has the right to read only. -/
def readOnlyRun : List Op := [.spawn ⟨true, 0⟩, .schedule 1, .vmoCreate 4096]

set_option maxRecDepth 20000 in
theorem readOnlyRun_sound (hk : runAll Op.run readOnlyRun (booted 20) = some k) :
    Sound anyLeaf (k.handleDuplicate 65536 read) ∧ Counted (k.handleDuplicate 65536 read) := by
  have h1 := counts_lt (boot_counts_lt 20) [(517, 1)] (by decide)
  have h2 := counts_lt h1 [(518, 1)] (by decide)
  obtain ⟨⟨g, h⟩, hc⟩ := run_sound anyLeaf_serves ⟨_, boot_sound (anyLeaf_boots 20)⟩ (boot_counted 20) hk
    ⟨⟨trivial, fun i _ => h1 i⟩, ⟨trivial, fun i _ => h1 i⟩, ⟨trivial, fun i _ => h2 i⟩, trivial⟩
  refine ⟨⟨g, h.handleDuplicate 65536 read⟩, ?_⟩
  unfold Counted
  rw [mm_handleDuplicate]
  exact hc

/-- The handle 65537 is there without the right to write, and mapping it succeeds. -/
def readOnlyMaps (prot : Nat) (k : Kern) : Bool :=
  (k.currentProc.any fun q => (q.fds.getEntry (65537 % 2 ^ 32)).any fun entry =>
    !contains entry.rights write) &&
    match (sysVmoMap 65537 0 4096 prot k).1 with
    | .ok _ => true
    | _ => false

theorem readOnlyMaps_spec (h : readOnlyMaps prot k = true) :
    LacksWrite k 65537 ∧ ∃ v k', sysVmoMap 65537 0 4096 prot k = (.ok v, k') := by
  obtain ⟨hlacks, hrun⟩ := Bool.and_eq_true_iff.mp h
  obtain ⟨q, hq, he⟩ := (Option.any_eq_true _ _).mp hlacks
  obtain ⟨entry, he, hw⟩ := (Option.any_eq_true _ _).mp he
  refine ⟨⟨q, entry, hq, he, by simpa using hw⟩, ?_⟩
  rcases hm : sysVmoMap 65537 0 4096 prot k with ⟨_ | _ | _, k'⟩
  · exact ⟨_, _, rfl⟩
  · rw [hm] at hrun
    cases hrun
  · rw [hm] at hrun
    cases hrun

end OpenV
