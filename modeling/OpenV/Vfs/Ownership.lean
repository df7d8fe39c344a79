import OpenV.Lib.Run
import OpenV.Vfs.FlatFiles
import OpenV.Vfs.Dirs

/- The blocks of a volume over whole runs. From a freshly formatted volume on, whatever is
   written, truncated, added and unlinked, no block is referred to twice and every block
   that is referred to lies behind the journal and is marked; and truncation clears the
   marks of the blocks that the file referred to, and no others. -/
namespace OpenV.Vfs

open Prog

inductive FsOp where
  | write (ino off : Nat) (data : Bytes)
  | truncate (ino : Nat)
  | createInode (itype : BitVec 8)
  | freeInode (ino : Nat)
  | initDir (ino parent : Nat)
  | addEntry (dir : Nat) (name : String) (child : Nat) (etype : BitVec 8)
  | linkEntry (dir : Nat) (name : String) (child : Nat) (etype : BitVec 8)
  | unlink (dir : Nat) (name : String)
  | sync

namespace FsOp

def prog : FsOp → FsProg Unit
  | write ino off data => do
    let _ ← fileWrite ino off data
  | truncate ino => fileTruncate ino
  | createInode itype => do
    let _ ← Vfs.createInode itype
  | freeInode ino => Vfs.freeInode ino
  | initDir ino parent => do
    let _ ← Vfs.initDir ino parent
  | addEntry dir name child etype => do
    let _ ← dirAddEntry dir name child etype
  | linkEntry dir name child etype => do
    let _ ← dirLinkEntry dir name child etype
  | unlink dir name => do
    let _ ← dirUnlink dir name
  | sync => do
    let _ ← fsync

def exec (op : FsOp) : Cmd OfsState Unit := op.prog.run handle

/-- What a step does with the marks of the blocks of a truncated file. -/
def ClearsBlocks (v v' : Vol) : FsOp → Prop
  | truncate ino => ino < maxInodes → ∀ b, v'.bit b = true ↔ v.bit b = true ∧ ¬v.Uses ino b
  | _ => True

theorem ensures_prog {v : Vol} (h : v.Owned) (op : FsOp) :
    op.prog.ensures volume (fun _ v' => v'.Owned ∧ op.ClearsBlocks v v') v := by
  cases op with
  | write ino off data =>
    rw [prog, ensures_bind]
    exact ensures_mono (touches_fileWrite h ino off data) fun _ _ ht => ⟨ht.owned, trivial⟩
  | truncate ino =>
    by_cases hino : ino < maxInodes
    · exact ensures_mono (ensures_fileTruncate h hino) fun _ _ ht => ⟨ht.owned h hino, fun _ => ht.bits⟩
    · refine ensures_mono (ensures_fileTruncate_out (by omega)) fun _ v' hv => ?_
      rw [hv]
      exact ⟨h, fun hlt => absurd hlt hino⟩
  | createInode itype =>
    rw [prog, ensures_bind]
    refine ensures_mono (ensures_createInode h itype) fun r v' hr => ⟨?_, trivial⟩
    cases r with
    | none =>
      subst hr
      exact h
    | some ino => exact hr.touches.owned
  | freeInode ino =>
    refine ensures_mono (ensures_freeInode ino) fun _ v' hv => ?_
    rw [hv]
    exact ⟨h.write_inodeBitmap, trivial⟩
  | initDir ino parent =>
    rw [prog, ensures_bind]
    exact ensures_mono (touches_initDir h ino parent) fun _ _ ht => ⟨ht.owned, trivial⟩
  | addEntry dir name child etype =>
    rw [prog, ensures_bind]
    exact ensures_mono (touches_dirAddEntry h dir name child etype) fun _ _ ht => ⟨ht.owned, trivial⟩
  | linkEntry dir name child etype =>
    rw [prog, ensures_bind]
    exact ensures_mono (touches_dirLinkEntry h dir name child etype) fun _ _ ht => ⟨ht.owned, trivial⟩
  | unlink dir name =>
    rw [prog, ensures_bind]
    exact ensures_mono (owned_dirUnlink h dir name) fun _ _ ho => ⟨ho, trivial⟩
  | sync =>
    exact ensures_commitTxn fun _ => ⟨h, trivial⟩

end FsOp

/-- From a formatted volume of any size on, the blocks stay owned in every state, and every truncation clears the
marks of the blocks of its file. -/
theorem blocks_owned {dev : Dev} (hok : dev.faulty = false) (hup : dev.left = none) (total : Nat) {ops : List FsOp}
    (hfresh : Along FsOp.exec (fun op s _ => op.prog.Meets handle Fresh s) ops
      (OfsState.mkfs { dev := dev, totalBlocks := total }).2) :
    (OfsState.mkfs { dev := dev, totalBlocks := total }).2.vol.Owned ∧
    Along FsOp.exec (fun op s s' => s'.vol.Owned ∧ op.ClearsBlocks s.vol s'.vol) ops
      (OfsState.mkfs { dev := dev, totalBlocks := total }).2 := by
  obtain ⟨s₀, hmkfs, hsound, _, _, _, hformat⟩ :=
    OfsState.mkfs_formatted (s := { dev := dev, totalBlocks := total }) hok hup rfl
  rw [hmkfs] at hfresh ⊢
  refine ⟨hformat.owned, Along.of_inv (fun s => s.Sound ∧ s.vol.Owned) (fun op s hs hf => ?_) ⟨hsound, hformat.owned⟩ hfresh⟩
  refine Cmd.wp_mono (run_volume hs.1 (op.ensures_prog hs.2) hf) (fun _ s' h => ?_) (fun _ h => h.elim)
  exact ⟨⟨h.1, h.2.1⟩, h.2⟩

theorem oneFile_create : (FsOp.createInode itypeFile).exec formatted = (.ok (), oneFile) := by
  unfold FsOp.exec FsOp.prog
  rw [Prog.run_bind]
  exact Cmd.bind_ok oneFile_run

theorem oneFile_write : (FsOp.write 1 0 { len := 1, get := fun _ => 7#8 }).exec oneFile =
    (.ok (), ((FsOp.write 1 0 { len := 1, get := fun _ => 7#8 }).exec oneFile).2) :=
  Cmd.eq_of_fst (by decide +kernel)

/-- A byte of a new file. -/
theorem blocks_owned_write : ((FsOp.write 1 0 { len := 1, get := fun _ => 7#8 }).exec oneFile).2.vol.Owned := by
  have hfresh : Along FsOp.exec (fun op s _ => op.prog.Meets handle Fresh s)
      [.createInode itypeFile, .write 1 0 { len := 1, get := fun _ => 7#8 }] formatted := by
    rw [along_cons oneFile_create, along_cons oneFile_write]
    refine ⟨((plain_createInode itypeFile).bind fun _ => .pure _).meets fresh_of_plain formatted, ?_, trivial⟩
    refine Prog.meets_bind.mpr ⟨fileWrite_fresh (fresh_of_uncached oneFile_spec.1 ?_), fun _ _ _ => trivial⟩
    exact Option.isNone_iff_eq_none.mp (by decide +kernel)
  rw [← formatted_eq] at hfresh
  have hall := (blocks_owned rfl rfl 2048 hfresh).2
  rw [formatted_eq, along_cons oneFile_create, along_cons oneFile_write] at hall
  exact hall.2.1.1

end OpenV.Vfs
