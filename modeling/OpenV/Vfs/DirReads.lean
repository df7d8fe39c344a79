import OpenV.Vfs.DirMap
import OpenV.Vfs.FlatFiles

/- What `dir_readall` and `dir_lookup_inode` return: the entries of the directory, in the
   order of their slots, and what the map has under the name. Both return at all, since
   no name in a directory reaches past the end of its block. -/
namespace OpenV.Vfs

open Prog List
variable {v : Vol} {d : Nat} {name : String}

/-- The contract of the volume for programs that only read, and do not panic. -/
def reading : Prog.Contract Request Request.Answer Vol := volume.only Request.Reads

variable {α : Type} {slot : Nat} {buf : Block}
variable {p : FsProg α} {P : α → Vol → Prop}

/-- A program that only reads returns what it ensures. -/
theorem run_reading {s : OfsState} (h : s.Sound) (hp : p.ensures reading P s.vol) (hfresh : p.Meets handle Fresh s) :
    ∃ a s', p.run handle s = (.ok a, s') ∧ s'.Sound ∧ P a s'.vol := by
  refine Prog.run_only handle_volume (fun q s hq hs => ?_) h hp hfresh
  obtain ⟨r, s', hr, _⟩ := handle_reads q s hq hs
  exact ⟨r, s', hr⟩

theorem reading_readInode {ino : Nat} {P : Option RawInode → Vol → Prop} (hino : ino < maxInodes)
    (h : P (some (v.inodeAt ino)) v) : (readInode ino).ensures reading P v := by
  have hreads : (readInode ino).Within Request.Reads := .request trivial
  exact hreads.ensures_only (ensures_readInode (fun _ => h) fun hout => absurd hino (by omega))

/-- Reading blocks is reading. -/
theorem reading_blocks {v : Vol} (hp : p.Within Request.ReadsBlk) (h : p.ensures volume P v) :
    p.ensures reading P v := by
  refine (hp.mono fun q hq => ?_).ensures_only h
  cases q with
  | readBlk b => trivial
  | _ => exact hq.elim

/-! ## Names -/

/-- A name that is short enough lies in its block. -/
theorem name_in_block {len : Nat} (hslot : slot < direntriesPerBlock) (hlen : len ≤ 55) :
    ¬blockSize < slot * direntrySize + 8 + len := by
  unfold direntriesPerBlock at hslot
  unfold blockSize direntrySize
  omega

theorem reading_direntNameEq (hslot : slot < direntriesPerBlock)
    (hlen : (direntRead buf (slot * direntrySize)).nameLen ≤ 55) (name : List (BitVec 8)) :
    (direntNameEq buf (slot * direntrySize) (direntRead buf (slot * direntrySize)).nameLen name).ensures reading (fun r v' =>
      v' = v ∧ r = decide ((direntRead buf (slot * direntrySize)).nameLen = name.length ∧
        slice buf (slot * direntrySize + 8) name.length = name)) v := by
  rw [direntNameEq]
  by_cases hl : (direntRead buf (slot * direntrySize)).nameLen = name.length
  · rw [if_neg (not_not.mpr hl), direntName, if_neg (name_in_block hslot hlen), hl]
    exact ⟨rfl, by simp⟩
  · rw [if_pos hl]
    exact ⟨rfl, by simp [hl]⟩

theorem EntryAt.ent {block : Nat} {b : Block} (he : EntryAt v d name block slot b) :
    v.ent d (block * direntriesPerBlock + slot) =
      some (name, (direntRead b (slot * direntrySize)).inode, (direntRead b (slot * direntrySize)).etype) := by
  obtain ⟨hdiv, hmod⟩ := slot_div_mod block he.slot_lt
  rw [Vol.ent, if_pos he.covered, hdiv, hmod, he.block_eq]
  exact slotEntry_named he.named

theorem entryAt_of_ent {k : Nat} {x : Nat × BitVec 8} (hk : v.ent d k = some (name, x)) :
    ∃ block slot b, EntryAt v d name block slot b ∧ k = block * direntriesPerBlock + slot := by
  unfold Vol.ent at hk
  split_ifs at hk with hcov
  obtain ⟨b, hb, hs⟩ := Option.bind_eq_some_iff.mp hk
  refine ⟨k / direntriesPerBlock, k % direntriesPerBlock, b, ⟨hb, Nat.mod_lt _ (by decide), ?_, (slotNamed_of_entry hs).1⟩,
    (Nat.div_add_mod' k _).symm⟩
  rw [Nat.div_add_mod']
  exact hcov

/-- No directory has a long name. -/
theorem DirOk.names_long (h : DirOk v d) (hlen : 55 < (nameBytes name).length) : v.names d name = none := by
  refine h.names_eq_none.mpr fun k x hk => ?_
  obtain ⟨block, slot, b, he, _⟩ := entryAt_of_ent hk
  obtain ⟨b', hb', hslots⟩ := h.laid block he.block_lt
  cases he.block_eq.symm.trans hb'
  have hshort := (hslots slot he.slot_lt).1
  rw [slotLen, he.named.2.1] at hshort
  omega

/-! ## Looking up -/

/-- `dir_lookup_inode` on a directory returns what the map has. -/
theorem reading_dirLookupInode (h : v.Owned) (hd : d < maxInodes) (htype : (v.inodeAt d).itype = itypeDir) (hok : DirOk v d)
    (name : String) : (dirLookupInode d name).ensures reading (fun r v' => v' = v ∧ r = v.names d name) v := by
  rw [dirLookupInode, ensures_bind]
  refine reading_readInode hd ?_
  dsimp only
  rw [if_neg (not_not.mpr htype)]
  by_cases hlen : 55 < (nameBytes name).length
  · rw [if_pos hlen]
    exact ⟨rfl, (hok.names_long hlen).symm⟩
  rw [if_neg hlen, ensures_bind]
  refine ensures_findBlock reading_blocks h hd (fun block => ∀ slot b, ¬EntryAt v d name block slot b) (fun block hb hnone => ?_)
    (fun block hb s hs h0 => ?_) fun hall => ?_
  · obtain ⟨b, hblk, _⟩ := hok.laid block hb
    rw [hnone] at hblk
    cases hblk
  · obtain ⟨b, hblk, hslots⟩ := hok.laid block hb
    cases (Vol.dirBlock_of_slot hs h0).symm.trans hblk
    refine ensures_scanBlock (fun slot hslot => reading_direntNameEq hslot (hslots slot hslot).1 _)
      (fun slot hslot hcov hnamed => ?_) fun hno => ⟨rfl, fun slot b he => ?_⟩
    · have he : EntryAt v d name block slot (v.blk (v.ref d s)) := ⟨hblk, hslot, hcov, hnamed⟩
      exact ⟨_, rfl, rfl, (hok.names_eq_some.mpr ⟨_, he.ent⟩).symm⟩
    · have hb' := he.block_eq
      rw [hblk] at hb'
      cases hb'
      exact hno slot he.slot_lt he.covered he.named
  · refine ⟨rfl, (hok.names_eq_none.mpr fun k x hk => ?_).symm⟩
    obtain ⟨block, slot, b, he, _⟩ := entryAt_of_ent hk
    exact hall block he.block_lt slot b he

/-! ## Listing -/

/-- What a block of a directory adds to the list. -/
theorem reading_readSlots (total first : Nat) : ∀ {slots : List Nat}, slots.Pairwise (· < ·) →
    (∀ slot ∈ slots, slot < direntriesPerBlock ∧ slotLen buf slot ≤ 55) →
    (readSlots buf total first slots).ensures reading (fun r v' => v' = v ∧
      r = slots.filterMap fun slot => if first + slot < total then slotEntry buf slot else none) v
  | [], _, _ => ⟨rfl, rfl⟩
  | slot :: rest, hord, hslots => by
    obtain ⟨hlt, hord'⟩ := pairwise_cons.mp hord
    obtain ⟨hslot, hshort⟩ := hslots slot (.head _)
    have hrest := reading_readSlots total first hord' fun s hs => hslots s (.tail _ hs)
    rw [readSlots]
    by_cases hcov : total ≤ first + slot
    · -- the slots after it are behind the end, too
      rw [if_pos hcov]
      refine ⟨rfl, (filterMap_eq_nil_iff.mpr fun s hs => if_neg ?_).symm⟩
      rcases mem_cons.mp hs with rfl | hs
      · omega
      · have := hlt s hs
        omega
    rw [if_neg hcov]
    by_cases hfree : slotLen buf slot = 0
    · show (if slotLen buf slot = 0 then _ else _ : FsProg _).ensures _ _ _
      rw [if_pos hfree]
      refine ensures_mono hrest fun more v' hr => ⟨hr.1, hr.2.trans (filterMap_cons_none ?_).symm⟩
      rw [if_pos (by omega), slotEntry_free hfree]
    · show (if slotLen buf slot = 0 then _ else _ : FsProg _).ensures _ _ _
      have hin := name_in_block hslot (show (direntRead buf (slot * direntrySize)).nameLen ≤ 55 from hshort)
      rw [if_neg hfree, direntName, if_neg hin, ensures_bind, ensures_pure, ensures_bind]
      refine ensures_mono hrest fun more v' hr => ?_
      obtain ⟨rfl, rfl⟩ := hr
      have hentry : slotEntry buf slot = (fromUtf8 (slice buf (slot * direntrySize + 8)
          (direntRead buf (slot * direntrySize)).nameLen)).map fun name =>
            (name, (direntRead buf (slot * direntrySize)).inode, (direntRead buf (slot * direntrySize)).etype) := if_neg hfree
      cases hu : fromUtf8 (slice buf (slot * direntrySize + 8) (direntRead buf (slot * direntrySize)).nameLen) with
      | none =>
        rw [hu] at hentry
        refine ⟨rfl, (filterMap_cons_none ?_).symm⟩
        rw [if_pos (by omega), hentry]
        rfl
      | some nm =>
        rw [hu] at hentry
        refine ⟨rfl, (filterMap_cons_some ?_).symm⟩
        rw [if_pos (by omega), hentry]
        rfl

theorem reading_readBlocks (h : v.Owned) (hd : d < maxInodes) (hok : DirOk v d) : ∀ {blocks : List Nat},
    (∀ block ∈ blocks, block < v.dirBlocks d) → (readBlocks (v.inodeAt d) d blocks).ensures reading (fun r v' => v' = v ∧
      r = blocks.flatMap fun block => (range direntriesPerBlock).filterMap fun slot =>
        v.ent d (block * direntriesPerBlock + slot)) v
  | [], _ => ⟨rfl, rfl⟩
  | block :: rest, hblocks => by
    have hrest := reading_readBlocks h hd hok fun b hb => hblocks b (mem_cons_of_mem block hb)
    have hb := hblocks block (.head _)
    obtain ⟨buf, hblk, hslots⟩ := hok.laid block hb
    obtain ⟨s, hs, h0, rfl⟩ := Vol.slot_of_dirBlock hblk
    rw [readBlocks, ensures_bind]
    refine ensures_mono (reading_blocks (within_getFileBlock (fun _ => trivial) (by nofun) block)
      (ensures_getFileBlock_false (h.data_target hd) block)) fun res v' hres => ?_
    obtain ⟨rfl, rfl⟩ := hres
    rw [Vol.fileBlock_eq_some.mpr ⟨s, hs, h0, rfl⟩]
    rw [ensures_bind]
    refine reading_blocks (.request trivial) (ensures_readBlk (h.ref_target hd h0).2.2 ?_)
    rw [ensures_bind]
    refine ensures_mono (reading_readSlots _ _ pairwise_lt_range fun slot hslot =>
      ⟨mem_range.mp hslot, (hslots slot (mem_range.mp hslot)).1⟩) fun here v₁ hr => ?_
    obtain ⟨rfl, rfl⟩ := hr
    rw [ensures_bind]
    refine ensures_mono hrest fun more v₂ hr => ?_
    obtain ⟨rfl, rfl⟩ := hr
    refine ⟨rfl, ?_⟩
    congr 1
    refine filterMap_congr fun slot hslot => ?_
    have hlt := mem_range.mp hslot
    rw [hok.laid.ent_eq hb hlt hblk]
    split_ifs with hcov
    · rfl
    · exact (slotEntry_free ((hslots slot hlt).2 (by omega))).symm

/-- The slots of a directory, block by block. -/
theorem Vol.entries_eq (v : Vol) (d : Nat) : v.entries d = (range (v.dirBlocks d)).flatMap fun block =>
    (range direntriesPerBlock).filterMap fun slot => v.ent d (block * direntriesPerBlock + slot) := by
  have hsplit : ∀ n, (range (n * direntriesPerBlock)).filterMap (v.ent d) = (range n).flatMap fun block =>
      (range direntriesPerBlock).filterMap fun slot => v.ent d (block * direntriesPerBlock + slot) := by
    intro n
    induction n with
    | zero => rw [Nat.zero_mul]; rfl
    | succ n ih =>
      rw [Nat.succ_mul, range_add, filterMap_append, ih, range_succ, flatMap_append, flatMap_singleton]
      rfl
  exact hsplit (v.dirBlocks d)

/-- `dir_readall` on a directory returns its entries. -/
theorem reading_dirReadall (h : v.Owned) (hd : d < maxInodes) (htype : (v.inodeAt d).itype = itypeDir) (hok : DirOk v d) :
    (dirReadall d).ensures reading (fun r v' => v' = v ∧ r = v.entries d) v := by
  rw [dirReadall, ensures_bind]
  refine reading_readInode hd ?_
  dsimp only
  rw [if_neg (not_not.mpr htype)]
  refine ensures_mono (reading_readBlocks h hd hok fun block hb => mem_range.mp hb) fun r v' hr => ?_
  rw [Vol.entries_eq]
  exact hr

end OpenV.Vfs
