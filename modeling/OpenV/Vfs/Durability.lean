import OpenV.Vfs.Ownership

/- Durability. A write that `file_write` has reported survives a crash if the blocks it
   changed fit into the journal, since `commit_txn` then leaves nothing pending and the
   next mount finds the volume as it was. `file_write` does not look at the result of
   `commit_txn`: the bytes of a write that changes more blocks than the journal has slots
   are lost although it returns `Ok`. -/
namespace OpenV.Vfs

open Cmd Prog OfsState FsOp

/-- A journal that is idle is left alone. -/
theorem Ofs.journalReplay_idle {s : Ofs} (hok : s.dev.faulty = false)
    (hidle : acceptHeader (s.dev.disk journalHdrBlk) = none) : journalReplay s = (.ok (), s) := by
  have hread : readBlock journalHdrBlk s = (.ok (some (s.dev.disk journalHdrBlk)), s) := by
    show (Res.ok (if s.dev.faulty then none else some (s.dev.disk journalHdrBlk)), s) = _
    rw [hok]
    rfl
  refine (bind_ok hread).trans ?_
  dsimp only
  rw [hidle]
  rfl

/-! ## The superblock -/

theorem superblock_total (total : BitVec 32) : u32Le (superblock total) 8 = total := by
  rw [superblock, u32Le_putU32_of_disjoint, u32Le_putU32]

theorem validSuperblock_superblock (total : BitVec 32) : validSuperblock (superblock total) := by
  have hmagic : u32Le (superblock total) 0 = ofsMagic := by
    rw [superblock, u32Le_putU32_of_disjoint, u32Le_putU32_of_disjoint,
      u32Le_putU32_of_disjoint, u32Le_putU32]
  have hversion : u32Le (superblock total) 4 = ofsVersion := by
    rw [superblock, u32Le_putU32_of_disjoint, u32Le_putU32_of_disjoint, u32Le_putU32]
  refine ⟨hmagic, hversion, ?_⟩
  rw [hmagic, hversion, superblock_total]
  exact u32Le_putU32.symm

variable {α : Type} {s s' : OfsState} {ino off : Nat} {data : Bytes}

/-- No operation writes the superblock or resizes the volume. -/
theorem ensures_system {P : α → Vol → Prop} {p : FsProg α} : ∀ {v : Vol}, p.ensures volume P v →
    p.ensures volume (fun a v' => P a v' ∧ v'.blk 0 = v.blk 0 ∧ v'.total = v.total) v := by
  induction p with
  | done a => exact fun h => ⟨h, rfl, rfl⟩
  | ask q k ih =>
    intro v h
    refine ⟨h.1, fun r v' hpost => ?_⟩
    have hkeep : v'.blk 0 = v.blk 0 ∧ v'.total = v.total := by
      cases q with
      | readBlk b =>
        rw [hpost.1]
        exact ⟨rfl, rfl⟩
      | writeBlk b d =>
        rw [hpost.1]
        exact ⟨Vol.write_of_ne h.1.1.symm, rfl⟩
      | readInode ino =>
        rw [hpost.1]
        exact ⟨rfl, rfl⟩
      | invalidate | commitTxn =>
        rw [show v' = v from hpost]
        exact ⟨rfl, rfl⟩
      | totalBlocks =>
        rw [hpost.1]
        exact ⟨rfl, rfl⟩
      | panic msg => exact hpost.elim
    rw [← hkeep.1, ← hkeep.2]
    exact ih r (h.2 r v' hpost)

/-- The volume has the superblock of its size. -/
structure Vol.Bootable (v : Vol) : Prop where
  super : v.blk 0 = superblock (BitVec.ofNat 32 v.total)
  total_lt : v.total < 2 ^ 32

/-- A volume without pending blocks is mounted as it is. -/
theorem OfsState.Sound.mount (h : s.Sound) (hb : s.vol.Bootable) (hp : s.pending = []) :
    (OfsState.mount s.dev).Sound ∧ (OfsState.mount s.dev).vol = s.vol ∧ (OfsState.mount s.dev).cache = {} := by
  have hdisk : s.dev.disk 0 = superblock (BitVec.ofNat 32 s.totalBlocks) := by
    have hview := hb.super
    rw [show s.vol.blk 0 = s.view 0 from rfl, view, hp] at hview
    exact hview
  have hvalid : validSuperblock (s.dev.disk 0) := by
    rw [hdisk]
    exact validSuperblock_superblock _
  have htotal : (u32Le (s.dev.disk 0) 8).toNat = s.totalBlocks := by
    rw [hdisk, superblock_total]
    exact Nat.mod_eq_of_lt hb.total_lt
  have hreplay := Ofs.journalReplay_idle (s := { dev := s.dev }) h.works h.idle
  have hmount : OfsState.mount s.dev = { dev := s.dev, totalBlocks := s.totalBlocks } := by
    show (if validSuperblock (s.dev.disk 0) then
      ({ toOfs := (Ofs.journalReplay { dev := s.dev }).2, totalBlocks := (u32Le (s.dev.disk 0) 8).toNat } : OfsState)
      else _) = _
    rw [if_pos hvalid, hreplay, htotal]
  rw [hmount]
  refine ⟨⟨h.works, h.up, List.Pairwise.nil, (fun _ he => by cases he), h.idle⟩, ?_, rfl⟩
  show Vol.mk s.totalBlocks _ = Vol.mk s.totalBlocks _
  congr 1
  funext b
  rw [view, view, hp]

/-! ## Commits that leave nothing pending -/

/-- A transaction is not larger than the journal. -/
def Fits : Request → OfsState → Prop
  | .commitTxn, s => s.pending.length ≤ journalSlots
  | _, _ => True

instance : (q : Request) → (s : OfsState) → Decidable (Fits q s)
  | .commitTxn, s => inferInstanceAs (Decidable (s.pending.length ≤ journalSlots))
  | .readBlk _, _ | .writeBlk _ _, _ | .readInode _, _ | .invalidate _, _ | .totalBlocks, _ | .panic _, _ => isTrue trivial

/-- After a commit nothing is pending; otherwise nothing is said. -/
def clean : Prog.Contract Request Request.Answer Bool where
  pre _ _ := True
  post
    | .commitTxn, _, _, c => c = true
    | _, _, _, _ => True

theorem OfsState.readBlk_returns (b : Nat) (s : OfsState) : ∃ r, readBlk b s = (.ok r, s) := by
  rw [readBlk, bind_get]
  cases s.pending.lookup b <;> exact ⟨_, rfl⟩

theorem OfsState.readInode_returns (ino : Nat) (s : OfsState) :
    ∃ r c, readInode ino s = (.ok r, { s with cache := c }) := by
  by_cases hino : maxInodes ≤ ino
  · exact ⟨none, s.cache, readInode_out hino⟩
  · rw [readInode, if_neg hino, bind_get]
    cases s.cache.get ino with
    | some n => exact ⟨_, s.cache, rfl⟩
    | none =>
      obtain ⟨r, hr⟩ := readBlk_returns (tableBlk ino) s
      dsimp only
      rw [bind_ok hr]
      cases r with
      | none => exact ⟨_, s.cache, rfl⟩
      | some buf => exact ⟨_, _, rfl⟩

theorem handle_clean (q : Request) (s : OfsState) (hs : s.dev.faulty = false ∧ s.dev.left = none) (hfits : Fits q s) :
    (handle q).wp (fun r s' => (s'.dev.faulty = false ∧ s'.dev.left = none) ∧
      clean.post q s.pending.isEmpty r s'.pending.isEmpty) (fun _ => False) (fun _ => True) s := by
  cases q with
  | commitTxn =>
    have hzoom : handle .commitTxn s = ((Ofs.commitTxn s.toOfs).1, { s with toOfs := (Ofs.commitTxn s.toOfs).2 }) := rfl
    by_cases hpos : s.pending = []
    · rw [wp_of_eq hzoom, Ofs.commitTxn_idle (.inl hpos)]
      refine ⟨hs, ?_⟩
      rw [hpos]
      rfl
    · rw [wp_of_eq hzoom, Ofs.commitTxn_fits hs.1 hs.2 hpos hfits]
      exact ⟨hs, rfl⟩
  | readBlk b =>
    obtain ⟨r, hr⟩ := readBlk_returns b s
    exact wp_of_ok hr ⟨hs, trivial⟩
  | writeBlk | invalidate | totalBlocks => exact wp_of_ok rfl ⟨hs, trivial⟩
  | readInode ino =>
    obtain ⟨r, c, hr⟩ := readInode_returns ino s
    exact wp_of_ok hr ⟨hs, trivial⟩
  | panic msg => exact (wp_die msg).mpr trivial

theorem ensures_clean_true (p : FsProg α) : ∀ c, p.ensures clean (fun _ _ => True) c := by
  induction p with
  | done a => exact fun _ => trivial
  | ask q k ih => exact fun _ => ⟨trivial, fun r c' _ => ih r c'⟩

/-- `file_write` ends with a commit. -/
theorem ensures_clean_fileWrite (ino off : Nat) (data : Bytes) (c : Bool) :
    (fileWrite ino off data).ensures clean (fun r c' => ∀ k, r = .ok k → c' = true) c := by
  rw [fileWrite, ensures_bind]
  refine ensures_mono (ensures_clean_true _ c) fun r c' _ => ?_
  cases r with
  | none => exact fun k hk => by cases hk
  | some n =>
    rw [ensures_ite]
    refine ⟨fun _ k hk => (by cases hk), fun _ => ?_⟩
    rw [ensures_bind]
    refine ensures_mono (ensures_clean_true _ c') fun r c' _ => ?_
    cases r with
    | error e => exact fun k hk => by cases hk
    | ok n =>
      rw [ensures_bind]
      refine ensures_mono (ensures_clean_true _ c') fun _ c' _ => ?_
      exact ensures_request.mpr ⟨trivial, fun _ c'' hc _ _ => hc⟩

/-- A `file_write` whose commit fits leaves nothing pending. -/
theorem fileWrite_clean {k : Nat} (hs : s.Sound) (hfits : (fileWrite ino off data).Meets handle Fits s)
    (hrun : (fileWrite ino off data).run handle s = (.ok (.ok k), s')) : s'.pending = [] := by
  have hw := run_ensures (fun q t ht hq _ => handle_clean q t ht hq) ⟨hs.works, hs.up⟩
    (ensures_clean_fileWrite ino off data s.pending.isEmpty) hfits
  rw [wp_of_eq hrun] at hw
  exact List.isEmpty_iff.mp (hw.2 k rfl)

theorem fsync_clean (hs : s.Sound) (hrun : fsync.run handle s = (.ok true, s')) : s'.pending = [] := by
  rcases hs.commitTxn with ⟨_, _, hcommit⟩ | ⟨_, hcommit⟩
  · have he : fsync.run handle s = (.ok true, s.committed) := bind_ok hcommit
    rw [he] at hrun
    cases hrun
    rfl
  · have he : fsync.run handle s = (.ok s.pending.isEmpty, s) := bind_ok hcommit
    rw [he] at hrun
    obtain ⟨hempty, rfl⟩ := Prod.ext_iff.mp hrun
    exact List.isEmpty_iff.mp (Res.ok.inj hempty)

theorem InodeCache.get_empty (ino : Nat) : ({} : InodeCache).get ino = none := by
  rw [InodeCache.get]
  cases InodeCache.first {} ino <;> rfl

/-! ## Runs -/

namespace FsOp

/-- The condition on a step: `read_inode` returns the inode last written; and a write ends below 4 GiB and changes no
more blocks than the journal has slots for, together with those that are still pending. -/
structure Commits (op : FsOp) (s : OfsState) : Prop where
  fresh : op.prog.Meets handle Fresh s
  fits : ∀ ino off data, op = .write ino off data →
    (fileWrite ino off data).Meets handle Fits s ∧ off + data.len < 2 ^ 32

/-- What has been reported as stored is there after a crash: the bytes of a write, and the whole volume after `fsync`. -/
def Durable (s s' : OfsState) : FsOp → Prop
  | write ino off data => ∀ k, ((fileWrite ino off data).run handle s).1 = .ok (.ok k) → ∃ out : Bytes,
    ((fileRead ino off { len := data.len, get := fun _ => 0#8 }).run handle (mount s'.dev)).1 = .ok (.ok out) ∧
      out.len = data.len ∧ ∀ i < data.len, out.get i = data.get i
  | sync => (fsync.run handle s).1 = .ok true → (mount s'.dev).vol = s'.vol
  | _ => True

end FsOp

/-- The bytes of a write are those that a read of the same range returns. -/
theorem Written.read {v : Vol} (hw : Written ino off data v s.vol) (hs : s.Sound) (hown : s.vol.Owned)
    (hend : off + data.len < 2 ^ 32) (hcache : s.cache = {}) : ∃ out : Bytes,
    ((fileRead ino off { len := data.len, get := fun _ => 0#8 }).run handle s).1 = .ok (.ok out) ∧
      out.len = data.len ∧ ∀ i < data.len, out.get i = data.get i := by
  have hfile : (s.vol.inodeAt ino).isFile := by
    have := hw.file
    unfold RawInode.isFile at this ⊢
    rw [hw.itype]
    exact this
  have hlen : min ((s.vol.inodeAt ino).size.toNat - off) data.len = data.len := by
    rw [hw.size]
    split_ifs with hlt
    · omega
    · omega
  obtain ⟨r, s', hrun, _⟩ := run_returns handle_reads (reads_fileRead ino off _) hs
  have hfresh : Fresh (.readInode ino) s := fresh_of_uncached hs (by rw [hcache, InodeCache.get_empty])
  have hread := run_volume hs (ensures_fileRead hown hw.ino_lt hfile { len := data.len, get := fun _ => 0#8 }
    fun i hi => by
      rw [hlen] at hi
      rw [hw.written i hi]
      exact Option.some_ne_none _) (fileRead_fresh hfresh)
  rw [wp_of_eq hrun] at hread
  obtain ⟨_, _, out, rfl, hout, hbytes⟩ := hread
  rw [hlen] at hout
  refine ⟨out, by rw [hrun], hout, fun i hi => ?_⟩
  have hb := hbytes i (by omega)
  rw [hw.written i hi] at hb
  exact (Option.some.inj hb).symm

/-- One operation. -/
theorem FsOp.durable_step (op : FsOp) (hs : s.Sound) (hown : s.vol.Owned) (hboot : s.vol.Bootable)
    (hc : op.Commits s) :
    op.exec.endsIn (fun s' => (s'.Sound ∧ s'.vol.Owned ∧ s'.vol.Bootable) ∧ op.Durable s s') s := by
  have hw := run_volume hs (ensures_system (op.ensures_prog hown)) hc.fresh
  rcases hrun : op.exec s with ⟨r, s'⟩
  rw [endsIn_of_eq hrun]
  rw [wp_of_eq (show op.prog.run handle s = _ from hrun)] at hw
  cases r with
  | err e => exact hw.elim
  | panic e => trivial
  | ok u =>
    obtain ⟨hs', ⟨hown', _⟩, hzero, htotal⟩ := hw
    have hboot' : s'.vol.Bootable := by
      refine ⟨?_, ?_⟩
      · rw [hzero, htotal]
        exact hboot.super
      · rw [htotal]
        exact hboot.total_lt
    refine ⟨⟨hs', hown', hboot'⟩, ?_⟩
    cases op with
    | write ino off data =>
      intro k hk
      obtain ⟨hfits, hend⟩ := hc.fits ino off data rfl
      have hfile : (fileWrite ino off data).run handle s = (.ok (.ok k), s') := by
        have hfst := eq_of_fst hk
        have hexec : (write ino off data).exec s = (.ok (), ((fileWrite ino off data).run handle s).2) := by
          unfold exec prog
          rw [run_bind]
          exact bind_ok hfst
        rw [hexec] at hrun
        rw [hfst]
        exact Prod.ext rfl (Prod.ext_iff.mp hrun).2
      have hwr := run_volume hs (ensures_fileWrite hown (by omega)) (meets_bind.mp hc.fresh).1
      rw [wp_of_eq hfile] at hwr
      obtain ⟨_, _, hres⟩ := hwr
      obtain ⟨_, hwritten⟩ := hres k rfl
      obtain ⟨hm, hvol, hcache⟩ := hs'.mount hboot' (fileWrite_clean hs hfits hfile)
      rw [← hvol] at hwritten hown'
      exact hwritten.read hm hown' hend hcache
    | sync =>
      intro hk
      have hfst := eq_of_fst hk
      have hexec : sync.exec s = (.ok (), (fsync.run handle s).2) := by
        unfold exec prog
        rw [run_bind]
        exact bind_ok hfst
      rw [hexec] at hrun
      have hclean := fsync_clean hs hfst
      rw [show (fsync.run handle s).2 = s' from (Prod.ext_iff.mp hrun).2] at hclean
      exact (hs'.mount hboot' hclean).2.1
    | _ => trivial

/-- The new file once it is on disk. -/
def storedFile : OfsState := (fsync.run handle oneFile).2

/-- Thirty blocks. With the bitmap, the inode and an indirect block they are one more than the journal takes. -/
def thirtyBlocks : Bytes := { len := 30 * blockSize, get := fun _ => 7#8 }

/-- The number of bytes that a read returns. -/
def readLen : Res (Except FsError Bytes) → Option Nat
  | .ok (.ok out) => some out.len
  | _ => none

end OpenV.Vfs
