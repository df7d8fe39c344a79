import OpenV.Vfs.Touches

/- A new volume: what `mkfs` leaves on a working device. -/
namespace OpenV.Vfs

open Prog Vol

/-- A volume whose inodes have no blocks. -/
theorem Vol.owned_of_empty {v : Vol} (h : ∀ ino < maxInodes, ∀ r, (v.inodeAt ino).root r = 0#32) : v.Owned := by
  have href : ∀ ino < maxInodes, ∀ s, v.ref ino s = 0 := by
    intro ino hino s
    induction s using Slot.parent_induction with
    | hroot r => exact congrArg BitVec.toNat (h ino hino r)
    | hstep s p i hp ih => exact refIn_eq_zero hp ih
  refine ⟨fun ino hino s h0 => absurd (href ino hino s) h0, fun ino hino s => ?_,
    fun ino hino s h0 => absurd (href ino hino s) h0, fun ino hino _ _ s _ h0 => absurd (href ino hino s) h0⟩
  rw [href ino hino s]
  decide

theorem rawInodeRead_zeroBlock (off : Nat) : rawInodeRead zeroBlock off = {} := by
  have hword : ∀ o, u32Le zeroBlock o = 0#32 := fun o => by
    unfold u32Le zeroBlock
    decide
  unfold rawInodeRead
  simp only [hword]
  rfl

theorem bitSet_zeroBlock (i : Nat) : bitSet zeroBlock i = false := by
  simp [bitSet, zeroBlock]

theorem bitSet_freshBitmap (i : Nat) : bitSet freshBitmap i = decide (i < dataStart) := by
  have hfold : ∀ n, bitSet ((List.range n).foldl (fun b i => putBit b i true) zeroBlock) i = decide (i < n) := by
    intro n
    induction n with
    | zero => exact bitSet_zeroBlock i
    | succ n ih =>
      rw [List.range_succ, List.foldl_append, List.foldl_cons, List.foldl_nil, bitSet_putBit, ih]
      split_ifs with h
      · simp [h]
      · simp only [decide_eq_decide]
        omega
  exact hfold dataStart

/-- The volume has its root directory and nothing else. -/
structure Vol.Formatted (v : Vol) : Prop where
  inodes : ∀ ino < maxInodes, v.inodeAt ino = if ino = rootInode then rootInodeValue else {}
  bits : ∀ b, v.bit b = decide (b < dataStart)
  inodeBitmap : v.blk inodeBitmapBlk = putBit zeroBlock rootInode true
  super : v.blk 0 = superblock (BitVec.ofNat 32 v.total)

theorem Vol.Formatted.owned {v : Vol} (h : v.Formatted) : v.Owned :=
  owned_of_empty fun ino hino r => by
    rw [h.inodes ino hino]
    split_ifs <;> cases r <;> rfl

theorem ensures_bitmapSet {v : Vol} {bb : Nat} (hbb : Target bb) (bit : Nat) (value : Bool) :
    (bitmapSet bb bit value).ensures volume (fun _ v' => v' = v.write bb (putBit (v.blk bb) bit value)) v := by
  rw [bitmapSet, ensures_bind]
  refine ensures_readBlk hbb.2.2 ?_
  dsimp only
  by_cases hl : bitmapBits ≤ bit
  · rw [if_pos hl]
    exact ensures_panic _
  · rw [if_neg hl]
    exact ensures_writeBlk hbb rfl

theorem plain_bitmapSet (bb bit : Nat) (value : Bool) : (bitmapSet bb bit value).Within Request.Plain := by
  refine .bindSome (.request trivial) fun buf => ?_
  refine .ite (fun _ => ⟨trivial, fun r => nomatch r⟩) fun _ => ?_
  exact .bind (.request trivial) fun _ => .pure _

namespace OfsState

theorem writeDevice_up (ws : List (Nat × Block)) : ∀ {s : OfsState}, s.dev.faulty = false → s.dev.left = none →
    writeDevice ws s = (.ok (), { s with toOfs := s.toOfs.written ws }) := by
  induction ws with
  | nil => exact fun _ _ => rfl
  | cons w ws ih =>
    intro s hok hup
    obtain ⟨b, d⟩ := w
    have hwrite : onJournal (Ofs.writeBlock b d) s = (.ok true, { s with toOfs := s.toOfs.written [(b, d)] }) := by
      show ((Ofs.writeBlock b d s.toOfs).1, ({ s with toOfs := (Ofs.writeBlock b d s.toOfs).2 } : OfsState)) = _
      rw [Ofs.writeBlock_up hok hup]
    exact (Cmd.bind_ok hwrite).trans (ih hok hup)

/-- What `mkfs` leaves in a block that it writes to the device. -/
theorem mkfsWrites_at {total b : Nat} {d : Block} (h : (b, d) ∈ mkfsWrites total) (disk : Nat → Block) :
    applyWrites (mkfsWrites total) disk b = d := by
  have hkeys : (mkfsWrites total).map (·.1) = List.range 36 := rfl
  exact applyWrites_of_mem (by rw [hkeys]; exact List.nodup_range) h

theorem mkfsWrites_table {ino : Nat} (hino : ino < maxInodes) (total : Nat) :
    (tableBlk ino, zeroBlock) ∈ mkfsWrites total := by
  refine List.mem_append_left _ (List.mem_append_right _ (List.mem_map.mpr ⟨ino / inodesPerBlock, ?_, rfl⟩))
  rw [List.mem_range]
  unfold maxInodes at hino
  unfold inodesPerBlock inodeTableBlocks
  omega

/-- The volume that `mkfs` has written to the device. -/
theorem mkfsWrites_vol {s : OfsState} (hpend : s.pending = []) :
    let v := vol { s with toOfs := s.toOfs.written (mkfsWrites s.totalBlocks) }
    (∀ ino < maxInodes, v.inodeAt ino = {}) ∧ v.blk blockBitmapBlk = freshBitmap ∧ v.blk inodeBitmapBlk = zeroBlock ∧
      v.blk 0 = superblock (BitVec.ofNat 32 v.total) := by
  have hview : ∀ {b d}, Ofs.Data b → (b, d) ∈ mkfsWrites s.totalBlocks →
      view { s with toOfs := s.toOfs.written (mkfsWrites s.totalBlocks) } b = d := fun {b d} hb hm => by
    rw [view, if_pos hb]
    show (s.pending.lookup b).getD (applyWrites _ _ b) = d
    rw [hpend]
    exact mkfsWrites_at hm _
  refine ⟨fun ino hino => ?_, ?_, ?_, ?_⟩
  · show rawInodeRead (view _ _) _ = _
    rw [hview (target_tableBlk hino).2.2 (mkfsWrites_table hino _), rawInodeRead_zeroBlock]
  · exact hview (b := blockBitmapBlk) (by decide) (by simp [mkfsWrites])
  · exact hview (b := inodeBitmapBlk) (by decide) (by simp [mkfsWrites])
  · exact hview (b := 0) (by decide) (by simp [mkfsWrites, vol])

/-- `mkfs` on a working device. -/
theorem mkfs_formatted {s : OfsState} (hok : s.dev.faulty = false) (hup : s.dev.left = none) (hpend : s.pending = []) :
    ∃ s', mkfs s = (.ok (), s') ∧ s'.Sound ∧ s'.pending = [] ∧ s'.totalBlocks = s.totalBlocks ∧ s'.cache = s.cache.invalidate 0 ∧
      s'.vol.Formatted := by
  obtain ⟨htable, hbits, hibits, hsuper⟩ := mkfsWrites_vol hpend
  have hs₁ : Sound { s with toOfs := s.toOfs.written (mkfsWrites s.totalBlocks) } := by
    refine ⟨hok, hup, ?_, ?_, ?_⟩
    · show s.pending.Pairwise _
      rw [hpend]
      exact List.Pairwise.nil
    · show ∀ e ∈ s.pending, _
      rw [hpend]
      exact fun e he => by cases he
    · show Ofs.acceptHeader (applyWrites (mkfsWrites s.totalBlocks) s.dev.disk journalHdrBlk) = none
      exact Ofs.acceptHeader_clear
  generalize hgen : ({ s with toOfs := s.toOfs.written (mkfsWrites s.totalBlocks) } : OfsState) = s₁
    at htable hbits hibits hsuper hs₁
  have hroot : ∃ s', mkfsRoot.run handle s₁ = (.ok (), s') ∧ s'.pending = [] ∧ s'.totalBlocks = s₁.totalBlocks ∧
      s'.cache = s₁.cache.invalidate 0 := by
    have hp₁ : s₁.pending = [] := by
      rw [← hgen]
      exact hpend
    have hw := hs₁.works
    have hu := hs₁.up
    obtain ⟨⟨⟨disk, left, faulty⟩, pending⟩, total, cache⟩ := s₁
    cases hp₁
    cases hw
    cases hu
    exact ⟨_, rfl, rfl, rfl, rfl⟩
  obtain ⟨s', hrun, hp', ht', hc'⟩ := hroot
  have hensures : mkfsRoot.ensures volume (fun _ v' => v'.Formatted) s₁.vol := by
    rw [mkfsRoot, ensures_bind]
    refine ensures_mono (ensures_bitmapSet (by decide) _ _) fun _ v' hv' => ?_
    subst hv'
    rw [ensures_bind]
    refine ensures_writeInode (by decide) ?_
    refine ensures_commitTxn fun _ => ?_
    refine ⟨fun ino hino => ?_, fun b => ?_, ?_, ?_⟩
    · by_cases hi : ino = rootInode
      · rw [if_pos hi, hi, inodeAt_putInode_self]
      · rw [if_neg hi, inodeAt_putInode_of_ne hi, inodeAt_write (inodeBitmap_ne_table ino).symm]
        exact htable ino hino
    · rw [bit_putInode, bit_write (by decide), bit, hbits]
      exact bitSet_freshBitmap b
    · rw [putInode_of_ne (inodeBitmap_ne_table _), write_self, hibits]
    · exact hsuper
  have hplain : mkfsRoot.Within Request.Plain :=
    .bind (plain_bitmapSet ..) fun _ => .bind (within_writeInode (fun _ h => h) ..) fun _ =>
      .bind (.request trivial) fun _ => .pure _
  have hw := run_volume hs₁ hensures (hplain.meets fresh_of_plain s₁)
  rw [Cmd.wp_of_eq hrun] at hw
  refine ⟨s', ?_, hw.1, hp', ?_, ?_, hw.2⟩
  · rw [mkfs, Cmd.bind_get, Cmd.bind_ok (writeDevice_up _ hok hup), hgen]
    exact hrun
  · rw [ht', ← hgen]
  · rw [hc', ← hgen]

end OfsState

/-! ## New inodes -/

section
variable {v : Vol}

theorem ensures_allocInode : allocInode.ensures volume (fun r v' =>
    match r with
    | none => v' = v
    | some ino => ino < maxInodes ∧ v.ibit ino = false ∧
      v' = v.write inodeBitmapBlk (putBit (v.blk inodeBitmapBlk) ino true)) v := by
  refine ensures_readBlk (by decide) ?_
  refine ensures_mono (ensures_bitmapScan (by decide) _ _) fun r v' hr => ?_
  cases r with
  | none => exact hr
  | some ino =>
    obtain ⟨_, h2, _, h4, h5⟩ := hr
    refine ⟨?_, h4, h5⟩
    omega

/-- An inode has been allocated and has no blocks yet. -/
structure Created (t : BitVec 8) (ino : Nat) (v v' : Vol) : Prop where
  ino_lt : ino < maxInodes
  free : v.ibit ino = false
  used : v'.ibit ino = true
  inode : v'.inodeAt ino = { itype := t, nlink := 1#32 }
  touches : Vol.Touches (· = ino) v v'

/-- `create_inode` on an owned volume. -/
theorem ensures_createInode (h : v.Owned) (t : BitVec 8) : (createInode t).ensures volume (fun r v' =>
    match r with
    | none => v' = v
    | some ino => Created t ino v v') v := by
  rw [createInode, ensures_bind]
  refine ensures_mono ensures_allocInode fun r v' hr => ?_
  cases r with
  | none => exact hr
  | some ino =>
    obtain ⟨hino, hfree, rfl⟩ := hr
    rw [ensures_bind]
    refine ensures_writeInode hino ⟨hino, hfree, ?_, inodeAt_putInode_self, ?_⟩
    · rw [ibit, putInode_of_ne (inodeBitmap_ne_table ino), write_self, bitSet_putBit, if_pos rfl]
    · have hbit := h.touches_inodeBitmap ino true
      exact hbit.trans (hbit.owned.touches_putInode hino fun r => .inl (by cases r <;> rfl))

theorem plain_createInode (t : BitVec 8) : (createInode t).Within Request.Plain := by
  refine .bindSome (within_bitmapAlloc (fun _ h => h) ..) fun ino => ?_
  exact .bind (within_writeInode (fun _ h => h) ..) fun _ => .pure _

end

/-! ## A small volume -/

/-- A formatted volume of 2048 blocks. -/
def formatted : OfsState := (OfsState.mkfs { dev := { disk := fun _ => zeroBlock }, totalBlocks := 2048 }).2

theorem formatted_spec : formatted.Sound ∧ formatted.vol.Formatted := by
  obtain ⟨s', hrun, hs, _, _, _, hv⟩ := OfsState.mkfs_formatted (s := { dev := { disk := fun _ => zeroBlock }, totalBlocks := 2048 })
    rfl rfl rfl
  have : formatted = s' := by rw [formatted, hrun]
  rw [this]
  exact ⟨hs, hv⟩

theorem formatted_eq : (OfsState.mkfs { dev := { disk := fun _ => zeroBlock }, totalBlocks := 2048 }).2 = formatted := rfl

-- evaluated by the kernel only
attribute [irreducible] formatted

/-- The same with an empty file. -/
def oneFile : OfsState := ((createInode itypeFile).run handle formatted).2

theorem oneFile_run : (createInode itypeFile).run handle formatted = (.ok (some 1), oneFile) :=
  Cmd.eq_of_fst (by decide +kernel)

theorem oneFile_spec : oneFile.Sound ∧ oneFile.vol.Owned ∧ oneFile.vol.inodeAt 1 = { itype := itypeFile, nlink := 1#32 } := by
  have hw := run_volume formatted_spec.1 (ensures_createInode formatted_spec.2.owned itypeFile)
    ((plain_createInode itypeFile).meets fresh_of_plain formatted)
  rw [Cmd.wp_of_eq oneFile_run] at hw
  exact ⟨hw.1, hw.2.touches.owned, hw.2.inode⟩

attribute [irreducible] oneFile

end OpenV.Vfs
