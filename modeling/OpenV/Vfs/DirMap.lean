import OpenV.Lib.Slots
import OpenV.Vfs.Dirs

/- A directory as a finite map. `Vol.ent` is the entry in a slot of a directory, counted
   over all its blocks; `DirOk` says that the blocks are there, that no slot behind the end
   is in use and that no name stands in two slots. `dir_add_entry` changes one slot from
   free to the new entry and `dir_unlink` one slot to free, and neither changes another
   slot (`Added.ent`, `Removed.ent`); `dir_readall` lists the slots in use and
   `dir_lookup_inode` finds the one with the name. -/
namespace OpenV.Vfs

open Function Vol RawInode

/-! ## Entries as bytes -/

theorem nameBytes_of_fromUtf8 {bytes : List (BitVec 8)} {name : String} (h : fromUtf8 bytes = some name) :
    nameBytes name = bytes := by
  have hid : (UInt8.toBitVec ∘ UInt8.ofBitVec) = id := funext fun _ => rfl
  unfold fromUtf8 String.fromUTF8? at h
  split_ifs at h with hv
  cases h
  show (List.map UInt8.toBitVec (List.map UInt8.ofBitVec bytes)) = bytes
  rw [List.map_map, hid, List.map_id]

theorem nameBytes_inj {name name' : String} (h : nameBytes name = nameBytes name') : name = name' := by
  have := fromUtf8_nameBytes name
  rw [h, fromUtf8_nameBytes] at this
  exact (Option.some.inj this).symm

section Slots
variable {b b' : Block} {slot slot' ino : Nat} {name : List (BitVec 8)} {etype : BitVec 8}

theorem direntWrite_out (hlen : name.length ≤ 55) {off i : Nat} (h : i < off ∨ off + direntrySize ≤ i) :
    direntWrite b off ino name etype i = b i := by
  unfold direntrySize at h
  rw [direntWrite, copyInto_out (by omega), update_of_ne (by omega), update_of_ne (by omega),
    putU32_out (by omega)]

theorem direntRead_write (hlen : name.length ≤ 55) (off : Nat) : direntRead (direntWrite b off ino name etype) off =
    { inode := ino % 2 ^ 32, nameLen := name.length, etype := etype } := by
  have hword : u32Le (direntWrite b off ino name etype) off = BitVec.ofNat 32 ino := by
    have hcongr : u32Le (direntWrite b off ino name etype) off = u32Le (putU32 b off (BitVec.ofNat 32 ino)) off :=
      u32Le_congr fun i hi => by
        rw [direntWrite, copyInto_out (by omega), update_of_ne (by omega), update_of_ne (by omega)]
    rw [hcongr, u32Le_putU32]
  have hname : direntWrite b off ino name etype (off + 4) = BitVec.ofNat 8 name.length := by
    rw [direntWrite, copyInto_out (by omega), update_of_ne (by omega), update_self]
  have htype : direntWrite b off ino name etype (off + 5) = etype := by
    rw [direntWrite, copyInto_out (by omega), update_self]
  unfold direntRead
  rw [hword, hname, htype, BitVec.toNat_ofNat, BitVec.toNat_ofNat, Nat.mod_eq_of_lt (show name.length < 2 ^ 8 by omega)]

theorem slice_write (off : Nat) : slice (direntWrite b off ino name etype) (off + 8) name.length = name := by
  refine List.ext_getElem (by simp [slice]) fun i hi hi' => ?_
  have hlt : i < name.length := hi'
  simp only [slice, List.getElem_map, List.getElem_range]
  rw [direntWrite, copyInto_at hlt, List.getD_eq_getElem _ _ hlt]

theorem nameLen_clear (off : Nat) : (direntRead (direntClear b off) off).nameLen = 0 := by
  show (direntClear b off (off + 4)).toNat = 0
  rw [direntClear, copyInto_at (by decide)]
  rfl

/-- The length of the name in a slot; 0 if the slot is free. -/
def slotLen (b : Block) (slot : Nat) : Nat := (direntRead b (slot * direntrySize)).nameLen

/-- The entry in a slot of a directory block. -/
def slotEntry (b : Block) (slot : Nat) : Option (String × Nat × BitVec 8) :=
  let de := direntRead b (slot * direntrySize)
  if de.nameLen = 0 then none
  else (fromUtf8 (slice b (slot * direntrySize + 8) de.nameLen)).map fun name => (name, de.inode, de.etype)

theorem slotEntry_free (h : slotLen b slot = 0) : slotEntry b slot = none := if_pos h

/-- A slot with a short name is its 64 bytes. -/
theorem slot_congr (h : ∀ i < direntrySize, b' (slot * direntrySize + i) = b (slot * direntrySize + i)) :
    slotLen b' slot = slotLen b slot ∧ (slotLen b slot ≤ 55 → slotEntry b' slot = slotEntry b slot) := by
  unfold direntrySize at h
  have hread : direntRead b' (slot * direntrySize) = direntRead b (slot * direntrySize) := by
    unfold direntRead direntrySize
    rw [h 4 (by omega), h 5 (by omega), u32Le_congr fun i hi => h i (by omega)]
  refine ⟨by rw [slotLen, hread, slotLen], fun hlen => ?_⟩
  have hslice : slice b' (slot * direntrySize + 8) (direntRead b (slot * direntrySize)).nameLen =
      slice b (slot * direntrySize + 8) (direntRead b (slot * direntrySize)).nameLen := by
    refine List.map_congr_left fun i hi => ?_
    have hlt := List.mem_range.mp hi
    unfold slotLen at hlen
    rw [Nat.add_assoc]
    exact h (8 + i) (by omega)
  unfold slotEntry
  dsimp only
  rw [hread, hslice]

/-- Another slot of the block is written. -/
theorem slot_write_of_ne (hlen : name.length ≤ 55) (hne : slot' ≠ slot) :
    slotLen (direntWrite b (slot * direntrySize) ino name etype) slot' = slotLen b slot' ∧
      (slotLen b slot' ≤ 55 → slotEntry (direntWrite b (slot * direntrySize) ino name etype) slot' = slotEntry b slot') := by
  refine slot_congr fun i hi => direntWrite_out hlen ?_
  unfold direntrySize at *
  omega

theorem slot_clear_of_ne (hne : slot' ≠ slot) :
    slotLen (direntClear b (slot * direntrySize)) slot' = slotLen b slot' ∧
      (slotLen b slot' ≤ 55 → slotEntry (direntClear b (slot * direntrySize)) slot' = slotEntry b slot') := by
  refine slot_congr fun i hi => copyInto_out ?_
  unfold direntrySize at *
  omega

theorem slotLen_write (b : Block) (slot : Nat) (hlen : name.length ≤ 55) :
    slotLen (direntWrite b (slot * direntrySize) ino name etype) slot ≤ 55 := by
  rw [slotLen, direntRead_write hlen]
  exact hlen

theorem slotEntry_write {name : String} (b : Block) (slot : Nat) (etype : BitVec 8) (hlen : (nameBytes name).length ≤ 55)
    (hne : name ≠ "") (hino : ino < 2 ^ 32) :
    slotEntry (direntWrite b (slot * direntrySize) ino (nameBytes name) etype) slot = some (name, ino, etype) := by
  have hpos : (nameBytes name).length ≠ 0 := fun h0 => by
    refine hne (nameBytes_inj ?_)
    rw [List.eq_nil_of_length_eq_zero h0]
    rfl
  unfold slotEntry
  rw [direntRead_write hlen]
  rw [if_neg hpos, slice_write, fromUtf8_nameBytes, Nat.mod_eq_of_lt hino]
  rfl

/-- The slot that `dir_lookup_inode` and `dir_unlink` look for. -/
theorem slotEntry_named {name : String} (h : SlotNamed b slot (nameBytes name)) : slotEntry b slot = some (name,
    (direntRead b (slot * direntrySize)).inode, (direntRead b (slot * direntrySize)).etype) := by
  obtain ⟨hne, hlen, hslice⟩ := h
  unfold slotEntry
  rw [if_neg hne, hlen, hslice, fromUtf8_nameBytes]
  rfl

theorem slotNamed_of_entry {name : String} {x : Nat × BitVec 8} (h : slotEntry b slot = some (name, x)) :
    SlotNamed b slot (nameBytes name) ∧
      x = ((direntRead b (slot * direntrySize)).inode, (direntRead b (slot * direntrySize)).etype) := by
  unfold slotEntry at h
  dsimp only at h
  split_ifs at h with hz
  obtain ⟨nm, hnm, he⟩ := Option.map_eq_some_iff.mp h
  cases he
  have hbytes := nameBytes_of_fromUtf8 hnm
  have hlen : (direntRead b (slot * direntrySize)).nameLen = (nameBytes name).length := by
    rw [hbytes]
    simp [slice]
  refine ⟨⟨hz, hlen, ?_⟩, rfl⟩
  rw [← hlen]
  exact hbytes.symm

theorem name_ne_empty {e : String × Nat × BitVec 8} (h : slotEntry b slot = some e) : e.1 ≠ "" := fun he => by
  obtain ⟨hz, hlen, _⟩ := (slotNamed_of_entry (show slotEntry b slot = some (e.1, e.2) from h)).1
  rw [he] at hlen
  exact hz (hlen.trans rfl)

end Slots

/-! ## Entries of a directory -/

section Entries
variable {v v' : Vol} {d block slot : Nat} {s : Slot} {x : Block}

theorem Vol.Same.dirBlock (h : Vol.Same d v v') (block : Nat) : v'.dirBlock d block = v.dirBlock d block :=
  dirBlock_congr fun s hs => ⟨h.ref s, h.data s (leafSlot_leaf hs)⟩

/-- A block of the directory is written. -/
theorem Vol.Owned.dirBlock_leaf (h : v.Owned) (hd : d < maxInodes) (hs : leafSlot block = some s) (h0 : v.ref d s ≠ 0)
    (x : Block) (j : Nat) : (v.write (v.ref d s) x).dirBlock d j = if j = block then some x else v.dirBlock d j := by
  rw [h.dirBlock_write hd hs h0 hd]
  simp only [true_and]

theorem Vol.Owned.dirBlock_resized (h : v.Owned) (hd : d < maxInodes) (fin j : Nat) :
    (v.resized d fin).dirBlock d j = v.dirBlock d j := by
  refine dirBlock_congr fun t _ => ⟨h.ref_resized hd fin t, fun h0 => ?_⟩
  unfold Vol.resized
  split_ifs
  · exact putInode_of_ne (not_table (h.start d hd t h0) hd).symm
  · rfl

/-- The number of blocks that a directory covers. -/
def Vol.dirBlocks (v : Vol) (d : Nat) : Nat := divCeil (v.inodeAt d).size.toNat blockSize

/-- The entry in a slot of a directory, the slots being counted over all its blocks. -/
def Vol.ent (v : Vol) (d k : Nat) : Option (String × Nat × BitVec 8) :=
  if k < (v.inodeAt d).totalEntries then
    (v.dirBlock d (k / direntriesPerBlock)).bind (slotEntry · (k % direntriesPerBlock))
  else none

theorem Vol.covered_iff {k : Nat} : k / direntriesPerBlock < v.dirBlocks d ↔
    k < v.dirBlocks d * direntriesPerBlock := Nat.div_lt_iff_lt_mul (by decide)

theorem Vol.totalEntries_le : (v.inodeAt d).totalEntries ≤ v.dirBlocks d * direntriesPerBlock := by
  unfold totalEntries dirBlocks divCeil direntriesPerBlock direntrySize blockSize
  omega

theorem Vol.block_lt (hcov : block * direntriesPerBlock + slot < (v.inodeAt d).totalEntries) : block < v.dirBlocks d := by
  have := totalEntries_le (v := v) (d := d)
  unfold direntriesPerBlock at *
  omega

theorem Vol.dirBlocks_eq (htotal : (v'.inodeAt d).totalEntries = (v.inodeAt d).totalEntries) :
    v'.dirBlocks d = v.dirBlocks d := by
  unfold dirBlocks
  rw [← divCeil_entries, ← divCeil_entries, htotal]

theorem Vol.ent_of_le {k : Nat} (hk : (v.inodeAt d).totalEntries ≤ k) : v.ent d k = none := if_neg (by omega)

theorem Vol.ent_congr (htotal : (v'.inodeAt d).totalEntries = (v.inodeAt d).totalEntries)
    (h : ∀ block < v.dirBlocks d, v'.dirBlock d block = v.dirBlock d block) (k : Nat) : v'.ent d k = v.ent d k := by
  unfold ent
  rw [htotal]
  split_ifs with hk
  · rw [h _ (covered_iff.mpr (lt_of_lt_of_le hk totalEntries_le))]
  · rfl

/-- The blocks that a directory covers are there, with short names in them and none behind its end. -/
def Laid (v : Vol) (d : Nat) : Prop :=
  ∀ block < v.dirBlocks d, ∃ b, v.dirBlock d block = some b ∧ ∀ slot < direntriesPerBlock, slotLen b slot ≤ 55 ∧
    ((v.inodeAt d).totalEntries ≤ block * direntriesPerBlock + slot → slotLen b slot = 0)

theorem Laid.congr (h : Laid v d) (htotal : (v'.inodeAt d).totalEntries = (v.inodeAt d).totalEntries)
    (hblock : ∀ block < v.dirBlocks d, v'.dirBlock d block = v.dirBlock d block) : Laid v' d := by
  intro block hb
  rw [dirBlocks_eq htotal] at hb
  rw [hblock block hb, htotal]
  exact h block hb

theorem slot_div_mod (block : Nat) (hs : slot < direntriesPerBlock) : (block * direntriesPerBlock + slot) / direntriesPerBlock = block ∧
    (block * direntriesPerBlock + slot) % direntriesPerBlock = slot := by
  unfold direntriesPerBlock at *
  omega

/-- In a directory with its blocks a slot behind the end is free, too. -/
theorem Laid.ent_eq (h : Laid v d) (hb : block < v.dirBlocks d) (hs : slot < direntriesPerBlock) {b : Block}
    (hblk : v.dirBlock d block = some b) : v.ent d (block * direntriesPerBlock + slot) = slotEntry b slot := by
  obtain ⟨hdiv, hmod⟩ := slot_div_mod block hs
  obtain ⟨b', hb', hslots⟩ := h block hb
  cases hblk.symm.trans hb'
  unfold ent
  split_ifs with hk
  · rw [hdiv, hmod, hblk]
    rfl
  · exact (slotEntry_free ((hslots slot hs).2 (by omega))).symm

/-- Two directories with the same entries in the same slots. -/
theorem Laid.ent_ext (h' : Laid v' d) {f : Nat → Option (String × Nat × BitVec 8)}
    (hin : ∀ block < v'.dirBlocks d, ∀ b, v'.dirBlock d block = some b → ∀ slot < direntriesPerBlock,
      slotEntry b slot = f (block * direntriesPerBlock + slot))
    (hout : ∀ k, v'.dirBlocks d * direntriesPerBlock ≤ k → f k = none) (k : Nat) : v'.ent d k = f k := by
  have hk : k = k / direntriesPerBlock * direntriesPerBlock + k % direntriesPerBlock := (Nat.div_add_mod' k _).symm
  have hmod : k % direntriesPerBlock < direntriesPerBlock := Nat.mod_lt _ (by decide)
  by_cases hb : k / direntriesPerBlock < v'.dirBlocks d
  · obtain ⟨b, hblk, _⟩ := h' _ hb
    rw [hk, h'.ent_eq hb hmod hblk]
    exact hin _ hb b hblk _ hmod
  · have hle := mt covered_iff.mpr hb
    rw [hout k (by omega)]
    exact ent_of_le (le_trans totalEntries_le (by omega))

/-- One slot of a block that the directory covers changes, the size at most up to the end of the last slot. -/
theorem Laid.put {b : Block} (h : Laid v d) (hb : block < v.dirBlocks d) (hs : slot < direntriesPerBlock)
    (hblk : v.dirBlock d block = some b) (htotal : (v'.inodeAt d).totalEntries = (v.inodeAt d).totalEntries)
    (hcov : block * direntriesPerBlock + slot < (v.inodeAt d).totalEntries)
    (hblocks : ∀ j, v'.dirBlock d j = if j = block then some x else v.dirBlock d j)
    (hothers : ∀ j ≠ slot, slotLen x j = slotLen b j ∧ (slotLen b j ≤ 55 → slotEntry x j = slotEntry b j))
    (hshort : slotLen x slot ≤ 55) : Laid v' d ∧ ∀ k, v'.ent d k =
      if k = block * direntriesPerBlock + slot then slotEntry x slot else v.ent d k := by
  have hN : v'.dirBlocks d = v.dirBlocks d := dirBlocks_eq htotal
  have hlaid : Laid v' d := by
    intro j hj
    rw [hN] at hj
    obtain ⟨c, hc, hslots⟩ := h j hj
    rw [hblocks, htotal]
    by_cases hjb : j = block
    · subst hjb
      cases hblk.symm.trans hc
      refine ⟨x, if_pos rfl, fun i hi => ?_⟩
      by_cases his : i = slot
      · subst his
        exact ⟨hshort, fun hle => absurd hcov (by omega)⟩
      · rw [(hothers i his).1]
        exact hslots i hi
    · exact ⟨c, (if_neg hjb).trans hc, hslots⟩
  refine ⟨hlaid, hlaid.ent_ext (fun j hj c hc i hi => ?_) fun k hk => ?_⟩
  · rw [hN] at hj
    rw [hblocks] at hc
    by_cases hjb : j = block
    · subst hjb
      rw [if_pos rfl] at hc
      cases hc
      by_cases his : i = slot
      · rw [if_pos (by rw [his]), his]
      · obtain ⟨b', hb', hslots⟩ := h j hj
        cases hblk.symm.trans hb'
        rw [if_neg (by omega), (hothers i his).2 (hslots i hi).1, h.ent_eq hj hi hblk]
    · rw [if_neg hjb] at hc
      have hne : j * direntriesPerBlock + i ≠ block * direntriesPerBlock + slot := by
        unfold direntriesPerBlock at *
        omega
      rw [if_neg hne, h.ent_eq hj hi hc]
  · rw [hN] at hk
    have hle := totalEntries_le (v := v) (d := d)
    rw [if_neg (by omega), ent_of_le (by omega)]

/-- A block with one entry is added. -/
theorem Laid.extend (h : Laid v d) (hN : v'.dirBlocks d = v.dirBlocks d + 1)
    (htotal : (v'.inodeAt d).totalEntries = v.dirBlocks d * direntriesPerBlock + 1)
    (hblocks : ∀ j ≤ v.dirBlocks d, v'.dirBlock d j = if j = v.dirBlocks d then some x else v.dirBlock d j)
    (hothers : ∀ j ≠ 0, slotLen x j = 0) (hshort : slotLen x 0 ≤ 55) : Laid v' d ∧ ∀ k, v'.ent d k =
      if k = v.dirBlocks d * direntriesPerBlock then slotEntry x 0 else v.ent d k := by
  have hle := totalEntries_le (v := v) (d := d)
  have hlaid : Laid v' d := by
    intro j hj
    rw [hblocks j (by omega)]
    by_cases hjb : j = v.dirBlocks d
    · refine ⟨x, if_pos hjb, fun i hi => ?_⟩
      by_cases hi0 : i = 0
      · subst hi0
        exact ⟨hshort, fun hle => absurd hle (by rw [hjb]; omega)⟩
      · rw [hothers i hi0]
        exact ⟨Nat.zero_le _, fun _ => rfl⟩
    · obtain ⟨c, hc, hslots⟩ := h j (by omega)
      refine ⟨c, (if_neg hjb).trans hc, fun i hi => ⟨(hslots i hi).1, fun hend => absurd hend ?_⟩⟩
      unfold direntriesPerBlock at *
      omega
  refine ⟨hlaid, hlaid.ent_ext (fun j hj c hc i hi => ?_) fun k hk => ?_⟩
  · rw [hblocks j (by omega)] at hc
    by_cases hjb : j = v.dirBlocks d
    · rw [if_pos hjb] at hc
      cases hc
      rw [hjb]
      by_cases hi0 : i = 0
      · rw [if_pos (by omega), hi0]
      · rw [if_neg (by omega), slotEntry_free (hothers i hi0), ent_of_le (by omega)]
    · rw [if_neg hjb] at hc
      have hne : j * direntriesPerBlock + i ≠ v.dirBlocks d * direntriesPerBlock := by
        unfold direntriesPerBlock at *
        omega
      rw [if_neg hne, h.ent_eq (by omega) hi hc]
  · rw [hN] at hk
    have hd : 0 < direntriesPerBlock := by decide
    rw [Nat.add_mul] at hk
    rw [if_neg (by omega), ent_of_le (by omega)]

end Entries

/-! ## Directories as maps -/

section Maps
variable {v v' v₁ : Vol} {d : Nat} {name : String} {child : Nat} {etype : BitVec 8}

/-- The entries of a directory, in the order of their slots. -/
def Vol.entries (v : Vol) (d : Nat) : List (String × Nat × BitVec 8) :=
  Slots.listed (v.dirBlocks d * direntriesPerBlock) (v.ent d)

/-- The directory as a map from names to inodes and types. -/
def Vol.names (v : Vol) (d : Nat) : String → Option (Nat × BitVec 8) :=
  Slots.find (v.dirBlocks d * direntriesPerBlock) (v.ent d)

theorem Vol.ent_out (v : Vol) (d k : Nat) (hk : v.dirBlocks d * direntriesPerBlock ≤ k) : v.ent d k = none :=
  ent_of_le (le_trans totalEntries_le hk)

/-- A directory that has its blocks and no name twice. -/
structure DirOk (v : Vol) (d : Nat) : Prop where
  laid : Laid v d
  unique : Slots.Distinct (v.ent d)

variable {x : Nat × BitVec 8} {k : Nat} {n : RawInode} {s : Slot}

theorem DirOk.names_eq_some (h : DirOk v d) :
    v.names d name = some x ↔ ∃ k, v.ent d k = some (name, x) := Slots.find_eq_some h.unique (v.ent_out d)

theorem DirOk.names_eq_none (h : DirOk v d) : v.names d name = none ↔ ∀ k x, v.ent d k ≠ some (name, x) :=
  Slots.find_eq_none h.unique (v.ent_out d)

/-- What the directory is read from has not changed. -/
theorem DirOk.congr (h : DirOk v d) (htotal : (v'.inodeAt d).totalEntries = (v.inodeAt d).totalEntries)
    (hblock : ∀ block < v.dirBlocks d, v'.dirBlock d block = v.dirBlock d block) :
    DirOk v' d ∧ v'.names d = v.names d := by
  have hent : v'.ent d = v.ent d := funext (ent_congr htotal hblock)
  refine ⟨⟨h.laid.congr htotal hblock, ?_⟩, ?_⟩
  · rw [hent]
    exact h.unique
  · rw [names, hent, dirBlocks_eq htotal, names]

theorem Vol.Same.dirOk (hs : Vol.Same d v v') (h : DirOk v d) : DirOk v' d ∧ v'.names d = v.names d :=
  h.congr (by rw [totalEntries, hs.size, totalEntries]) fun block _ => hs.dirBlock block

/-- An empty directory. -/
theorem dirOk_of_size (h : (v.inodeAt d).size = 0#32) : DirOk v d := by
  have hN : v.dirBlocks d = 0 := by
    rw [dirBlocks, h]
    rfl
  refine ⟨fun block hb => absurd hb (by omega), fun i j e e' hi => ?_⟩
  rw [ent_out v d i (by rw [hN]; omega)] at hi
  cases hi

/-- One more entry, in a slot that was free, under a name that no entry had. -/
theorem DirOk.insert (h : DirOk v d) (hlaid : Laid v' d) (hk : v.ent d k = none)
    (hent : ∀ j, v'.ent d j = if j = k then some (name, x) else v.ent d j) (hnew : v.names d name = none) :
    DirOk v' d ∧ v'.names d = update (v.names d) name (some x) := by
  have hnew' := h.names_eq_none.mp hnew
  refine ⟨⟨hlaid, h.unique.put hent fun e he => ?_⟩, ?_⟩
  · cases he
    exact hnew'
  · exact Slots.find_insert hent h.unique (v.ent_out d) (v'.ent_out d) rfl hk hnew'

/-- One entry less. -/
theorem DirOk.remove (h : DirOk v d) (hlaid : Laid v' d) (hk : v.ent d k = some (name, x))
    (hent : ∀ j, v'.ent d j = if j = k then none else v.ent d j) :
    DirOk v' d ∧ v'.names d = update (v.names d) name none :=
  ⟨⟨hlaid, h.unique.put hent nofun⟩, Slots.find_remove hent h.unique (v.ent_out d) (v'.ent_out d) rfl hk⟩

/-! ### Adding an entry -/

section
variable {old : Block} {s : Slot} {block slot : Nat} (hp : Place d v v₁ block slot s old)
include hp

theorem Place.size_lt (h : Laid v d) : (block * direntriesPerBlock + slot + 1) * direntrySize < 2 ^ 32 := by
  have hle : block ≤ v.dirBlocks d := by
    rcases hp.free with ⟨_, _, hcov, _⟩ | ⟨hend, _, _⟩
    · exact (block_lt hcov).le
    · exact le_of_eq hend
  have hthere : ∀ idx < block + 1, v₁.fileBlock (v₁.inodeAt d) idx ≠ none := by
    intro idx hidx hnone
    by_cases hlast : idx = block
    · rw [hlast, fileBlock_eq_some.mpr ⟨s, hp.leaf, hp.there, rfl⟩] at hnone
      cases hnone
    · obtain ⟨b, hb, _⟩ := h idx (by omega)
      obtain ⟨t, ht, h0, _⟩ := slot_of_dirBlock hb
      have hkept := hp.grows.kept d hp.dir_lt t h0
      rw [fileBlock_eq_some.mpr ⟨t, ht, by rw [← hkept] at h0; exact h0, rfl⟩] at hnone
      cases hnone
  have hblocks := hp.grows.owned.blocks_le hp.dir_lt hthere
  have hslot := hp.slot_lt
  unfold bitmapBits at hblocks
  unfold direntriesPerBlock direntrySize at *
  omega

section
variable (name : String) (child : Nat) (etype : BitVec 8)

/-- The count of links, which comes last, is not seen in the directory. -/
theorem Place.same_entered : (v₁.write (v₁.ref d s) (direntWrite old (slot * direntrySize) child (nameBytes name) etype)).Owned ∧
    Vol.Same d ((v₁.write (v₁.ref d s) (direntWrite old (slot * direntrySize) child (nameBytes name) etype)).resized d
      ((block * direntriesPerBlock + slot + 1) * direntrySize)) (v₁.entered d name child etype block slot s old) := by
  have hw := (hp.grows.owned.write_leaf hp.dir_lt (leafSlot_leaf hp.leaf) hp.there
    (direntWrite old (slot * direntrySize) child (nameBytes name) etype)).1
  have hsize := hw.touches_resized hp.dir_lt ((block * direntriesPerBlock + slot + 1) * direntrySize)
  exact ⟨hw, (hsize.owned.touches_bumped hp.dir_lt etype satInc).same d hp.dir_lt id⟩

/-- The blocks of the directory once the entry is in its place. -/
theorem Place.dirBlock_entered (j : Nat) : (v₁.entered d name child etype block slot s old).dirBlock d j =
    if j = block then some (direntWrite old (slot * direntrySize) child (nameBytes name) etype) else v₁.dirBlock d j := by
  obtain ⟨hw, hsame⟩ := hp.same_entered name child etype
  rw [hsame.dirBlock, hw.dirBlock_resized hp.dir_lt, hp.grows.owned.dirBlock_leaf hp.dir_lt hp.leaf hp.there]

theorem Place.size_entered (h : Laid v d) : ((v₁.entered d name child etype block slot s old).inodeAt d).size.toNat =
    max (v.inodeAt d).size.toNat ((block * direntriesPerBlock + slot + 1) * direntrySize) := by
  have hlt := hp.size_lt h
  have hinode := (hp.grows.owned.write_leaf hp.dir_lt (leafSlot_leaf hp.leaf) hp.there
    (direntWrite old (slot * direntrySize) child (nameBytes name) etype)).2 d hp.dir_lt
  rw [(hp.same_entered name child etype).2.size]
  unfold resized
  rw [hinode, hp.grows.inode.2.1]
  split_ifs with hs
  · rw [inodeAt_putInode_self]
    rw [BitVec.toNat_ofNat]
    omega
  · rw [hinode, hp.grows.inode.2.1]
    omega

end

end

/-- `dir_add_entry` fills a slot that was free, in a block that the directory has or in one behind them. -/
theorem Added.ent (ha : Added d name child etype v v') (h : Laid v d) (hne : name ≠ "") (hchild : child < 2 ^ 32) :
    Laid v' d ∧ (∃ k, v.ent d k = none ∧ ∀ j, v'.ent d j = if j = k then some (name, child, etype) else v.ent d j) ∧
      ((v'.inodeAt d).totalEntries = (v.inodeAt d).totalEntries ∨
        ∀ j < v.dirBlocks d, v'.dirBlock d j = v.dirBlock d j) := by
  obtain ⟨hlen, v₁, block, slot, s, old, hp, rfl⟩ := ha
  have hsize := hp.size_entered name child etype h
  have hblocks := hp.dirBlock_entered name child etype
  have hslot := hp.slot_lt
  have hx := slotEntry_write old slot etype hlen hne hchild
  have hxlen : slotLen (direntWrite old (slot * direntrySize) child (nameBytes name) etype) slot ≤ 55 :=
    slotLen_write old slot hlen
  generalize v₁.entered d name child etype block slot s old = v' at hsize hblocks ⊢
  rcases hp.free with ⟨hv, hold, hcov, hfree⟩ | ⟨hend, hzero, hold⟩
  · -- a slot that the directory covers
    rw [hv] at hblocks
    have hb := block_lt hcov
    have hblk : v.dirBlock d block = some old := by
      have hthere := hp.there
      rw [hv] at hthere
      rw [hold]
      exact dirBlock_of_slot hp.leaf hthere
    have htotal : (v'.inodeAt d).totalEntries = (v.inodeAt d).totalEntries := by
      unfold totalEntries at hcov ⊢
      unfold divCeil direntrySize at *
      omega
    obtain ⟨hlaid, hent⟩ := h.put hb hslot hblk htotal hcov hblocks (fun j hj => slot_write_of_ne hlen hj) hxlen
    refine ⟨hlaid, ⟨_, ?_, fun j => by rw [hent, hx]⟩, .inl htotal⟩
    rw [h.ent_eq hb hslot hblk]
    exact slotEntry_free hfree
  · -- the first slot of a new block
    subst hzero
    have hend' : block = v.dirBlocks d := hend
    rw [hold] at hblocks hx hxlen
    have hgrow : ∀ j ≤ v.dirBlocks d, v'.dirBlock d j = if j = v.dirBlocks d then
        some (direntWrite zeroBlock (0 * direntrySize) child (nameBytes name) etype) else v.dirBlock d j := fun j hj => by
      rw [hblocks, hend']
      by_cases hjb : j = v.dirBlocks d
      · rw [if_pos hjb, if_pos hjb]
      · obtain ⟨b, hb, _⟩ := h j (by omega)
        rw [if_neg hjb, if_neg hjb, hb]
        exact hp.grows.dirBlock hp.dir_lt hb
    have hbig : (v.inodeAt d).size.toNat ≤ v.dirBlocks d * blockSize := by
      unfold dirBlocks divCeil blockSize
      omega
    have htotal : (v'.inodeAt d).totalEntries = v.dirBlocks d * direntriesPerBlock + 1 := by
      unfold totalEntries
      unfold divCeil direntriesPerBlock direntrySize blockSize at *
      omega
    have hN : v'.dirBlocks d = v.dirBlocks d + 1 := by
      unfold dirBlocks at hbig hend' ⊢
      unfold divCeil direntriesPerBlock direntrySize blockSize at *
      omega
    obtain ⟨hlaid, hent⟩ := h.extend hN htotal hgrow (fun j hj => (slot_write_of_ne hlen hj).1) hxlen
    refine ⟨hlaid, ⟨_, ent_of_le totalEntries_le, fun j => by rw [hent, hx]⟩, .inr fun j hj => ?_⟩
    rw [hgrow j (by omega), if_neg (by omega)]

/-- What an attempt to add an entry does to the map: a success adds it, a failure adds it or does nothing. -/
structure Adds (d : Nat) (name : String) (x : Nat × BitVec 8) (ok : Bool) (v v' : Vol) : Prop where
  touches : Vol.Touches (· = d) v v'
  dirOk : DirOk v' d
  names : v'.names d = update (v.names d) name (some x) ∨ (ok = false ∧ v'.names d = v.names d)

/-- Blocks behind the end of a directory are not seen in it. -/
theorem Laid.dirBlock_grows (h : Laid v d) (hg : Vol.Grows d v v') (hd : d < maxInodes) :
    ∀ block < v.dirBlocks d, v'.dirBlock d block = v.dirBlock d block := fun block hb => by
  obtain ⟨b, hblk, _⟩ := h block hb
  rw [hblk, hg.dirBlock hd hblk]

section
variable {ok : Bool} (ht : Tried d name child etype ok v v') (hd : d < maxInodes) (hne : name ≠ "") (hchild : child < 2 ^ 32)
include ht hd hne hchild

theorem Tried.adds (h : DirOk v d) (hnew : v.names d name = none) : Adds d name (child, etype) ok v v' := by
  rcases ht with ha | ⟨rfl, hg, _⟩
  · obtain ⟨hlaid, ⟨k, hk, hent⟩, _⟩ := ha.ent h.laid hne hchild
    obtain ⟨hok, hnames⟩ := h.insert hlaid hk hent hnew
    exact ⟨ha.touches, hok, .inl hnames⟩
  · obtain ⟨hok, hnames⟩ := h.congr (by rw [totalEntries, hg.inode.2.1, totalEntries])
      (h.laid.dirBlock_grows hg hd)
    exact ⟨hg.touches, hok, .inr ⟨rfl, hnames⟩⟩

/-- An entry that is there is in a block that the directory had or behind these. -/
theorem Tried.place (h : Laid v d) : (v'.inodeAt d).totalEntries = (v.inodeAt d).totalEntries ∨
    ∀ j < v.dirBlocks d, v'.dirBlock d j = v.dirBlock d j := by
  rcases ht with ha | ⟨_, hg, _⟩
  · exact (ha.ent h hne hchild).2.2
  · exact .inr (h.dirBlock_grows hg hd)

end

theorem ensures_adds (h : v.Owned) (hd : d < maxInodes) (hok : DirOk v d) (hnew : v.names d name = none) (hne : name ≠ "")
    (hchild : child < 2 ^ 32) : (dirAddEntry d name child etype).ensures volume
      (fun ok => Adds d name (child, etype) ok v) v :=
  Prog.ensures_mono (ensures_dirAddEntry h d name child etype) fun _ _ ht => ht.adds hd hne hchild hok hnew

/-! ### Links -/

/-- The pointer in the inode that the slot hangs on. -/
def Slot.top : Slot → Root
  | .root r => r
  | .single _ => .indirect
  | .outer _ => .doubleIndirect
  | .inner _ _ => .doubleIndirect

theorem Vol.refIn_top {n' : RawInode} (h : n.root s.top = n'.root s.top) : v.refIn n s = v.refIn n' s := by
  cases s with
  | root r => exact congrArg BitVec.toNat h
  | single i => exact congrArg (fun p : BitVec 32 => v.entry p.toNat i) h
  | outer i => exact congrArg (fun p : BitVec 32 => v.entry p.toNat i) h
  | inner i j => exact congrArg (fun p : BitVec 32 => v.entry (v.entry p.toNat i) j) h

theorem Vol.top_ne_zero (h : v.ref d s ≠ 0) : v.ref d (.root s.top) ≠ 0 := fun h0 => by
  cases s with
  | root r => exact h h0
  | single i => exact h (refIn_eq_zero rfl h0)
  | outer i => exact h (refIn_eq_zero rfl h0)
  | inner i j => exact h (refIn_eq_zero rfl (refIn_eq_zero rfl h0))

/-- The inode of a directory is set back to a copy made before an entry was added, if it was. -/
theorem Adds.restored (ha : Adds d name x false v v') (hd : d < maxInodes) (hok : DirOk v d)
    (hkept : ∀ s, v.ref d s ≠ 0 → v'.ref d s = v.ref d s)
    (hplace : (v'.inodeAt d).totalEntries = (v.inodeAt d).totalEntries ∨
      ∀ j < v.dirBlocks d, v'.dirBlock d j = v.dirBlock d j) (hroot : ∀ r, n.root r = (v.inodeAt d).root r)
    (hsize : n.size = (v.inodeAt d).size) : Adds d name x false v (v'.putInode d n) := by
  have hdrop := root_of_kept hkept hroot
  have htouch := ha.touches.trans (ha.touches.owned.touches_putInode hd hdrop)
  have htotal : ((v'.putInode d n).inodeAt d).totalEntries = (v.inodeAt d).totalEntries := by
    rw [inodeAt_putInode_self, totalEntries, hsize, totalEntries]
  have hblocks : ∀ block < v.dirBlocks d, (v'.putInode d n).dirBlock d block = v'.dirBlock d block := fun block hb => by
    obtain ⟨b, hblk, _⟩ := hok.laid block hb
    obtain ⟨s, hs, h0, _⟩ := slot_of_dirBlock hblk
    refine dirBlock_congr fun t ht => ?_
    cases hs.symm.trans ht
    refine ⟨?_, fun h0' => putInode_of_ne (not_table (ha.touches.owned.start d hd s h0') hd).symm⟩
    rw [ha.touches.owned.ref_putInode hd hdrop hd, if_pos rfl]
    refine refIn_top ((hroot s.top).trans (BitVec.eq_of_toNat_eq ?_))
    exact (hkept (.root s.top) (top_ne_zero h0)).symm
  rcases hplace with hsame | hsame
  · -- the entry is in a block that the directory still has
    obtain ⟨hok', hn⟩ := ha.dirOk.congr (htotal.trans hsame.symm) fun block hb =>
      hblocks block (by rw [dirBlocks_eq hsame] at hb; exact hb)
    exact ⟨htouch, hok', by rw [hn]; exact ha.names⟩
  · obtain ⟨hok', hn⟩ := hok.congr htotal fun block hb => (hblocks block hb).trans (hsame block hb)
    exact ⟨htouch, hok', .inr ⟨rfl, hn⟩⟩

/-- `dir_link_entry`, also of a directory in itself. -/
theorem ensures_dirLinkEntry (h : v.Owned) (hd : d < maxInodes) (hok : DirOk v d) (hnew : v.names d name = none)
    (hne : name ≠ "") : (dirLinkEntry d name child etype).ensures volume (fun ok => Adds d name (child, etype) ok v) v := by
  refine Prog.ensures_mono (ensures_dirLinkEntry_steps h d name child etype) fun ok v' hr => ?_
  rcases hr with ⟨rfl, rfl⟩ | ⟨v₀, v₁, hinc, ht, hchild, hback⟩
  · exact ⟨.refl h, hok, .inr ⟨rfl, rfl⟩⟩
  have hchild' : child < 2 ^ 32 := by
    unfold maxInodes at hchild
    omega
  -- the count of links is not seen in a directory
  obtain ⟨hok₀, hnames₀⟩ := (hinc.same d hd id).dirOk hok
  have hadds := ht.adds hd hne hchild' hok₀ (hnames₀ ▸ hnew)
  suffices ha : Adds d name (child, etype) ok v₀ v' from
    ⟨(hinc.mono fun _ hf => hf.elim).trans ha.touches, ha.dirOk, by rw [← hnames₀]; exact ha.names⟩
  rcases hback with hback | ⟨rfl, rfl, n, rfl, hroot, _, hsize⟩
  · obtain ⟨hok', hn⟩ := (hback.same d hd id).dirOk hadds.dirOk
    exact ⟨hadds.touches.trans (hback.mono fun _ hf => hf.elim), hok', by rw [hn]; exact hadds.names⟩
  · -- the copy has the size and the blocks of before
    exact hadds.restored hd hok₀ (fun _ => ht.kept hd) (ht.place hd hne hchild' hok₀.laid) hroot hsize

/-! ### New directories -/

theorem dot_short : (nameBytes ".").length ≤ 55 := by decide +kernel

theorem dots_short : (nameBytes "..").length ≤ 55 := by decide +kernel

theorem dotBlock_eq (ino parent : Nat) : dotBlock ino parent = direntWrite (direntWrite zeroBlock (0 * direntrySize) ino
    (nameBytes ".") itypeDir) (1 * direntrySize) parent (nameBytes "..") itypeDir := rfl

theorem slotLen_dotBlock (ino parent slot : Nat) : slotLen (dotBlock ino parent) slot ≤ 55 ∧
    (2 ≤ slot → slotLen (dotBlock ino parent) slot = 0) := by
  rw [dotBlock_eq]
  by_cases h1 : slot = 1
  · subst h1
    exact ⟨slotLen_write _ 1 dots_short, fun h2 => absurd h2 (by omega)⟩
  rw [(slot_write_of_ne dots_short h1).1]
  by_cases h0 : slot = 0
  · subst h0
    exact ⟨slotLen_write _ 0 dot_short, fun h2 => absurd h2 (by omega)⟩
  · rw [(slot_write_of_ne dot_short h0).1]
    exact ⟨Nat.zero_le _, fun _ => rfl⟩

/-- A new directory has its two entries. -/
theorem dirOk_initialised {parent nb : Nat} (hd : d < maxInodes) (hparent : parent < 2 ^ 32) (hf : v.Free nb) :
    DirOk (v.initialised d parent nb) d := by
  have hinode : ((v.initialised d parent nb).inodeAt d).size = 128#32 := by
    rw [initialised, inodeAt_putInode_self]
    rfl
  have hN : (v.initialised d parent nb).dirBlocks d = 1 := by
    rw [dirBlocks, hinode]
    rfl
  have htotal : ((v.initialised d parent nb).inodeAt d).totalEntries = 2 := by
    rw [totalEntries, hinode]
    rfl
  have href : (v.initialised d parent nb).ref d (.root (.direct 0)) = nb := by
    rw [ref, initialised, inodeAt_putInode_self]
    show (update (v.inodeAt d).direct 0 (BitVec.ofNat 32 nb) 0).toNat = nb
    rw [update_self, hf.toNat]
  have hblk : (v.initialised d parent nb).dirBlock d 0 = some (dotBlock d parent) := by
    rw [dirBlock_of_slot (s := .root (.direct 0)) rfl (by rw [href]; exact hf.ne_zero), href, initialised,
      putInode_of_ne (not_table hf.start hd).symm, write_self]
  have hlaid : Laid (v.initialised d parent nb) d := by
    intro block hb
    rw [hN] at hb
    cases Nat.lt_one_iff.mp hb
    refine ⟨_, hblk, fun slot hslot => ⟨(slotLen_dotBlock d parent slot).1, fun hle => ?_⟩⟩
    exact (slotLen_dotBlock d parent slot).2 (by omega)
  have hone : slotEntry (dotBlock d parent) 1 = some ("..", parent, itypeDir) := by
    exact slotEntry_write _ 1 itypeDir dots_short (by decide) hparent
  have hzero : slotEntry (dotBlock d parent) 0 = some (".", d, itypeDir) := by
    exact slotEntry_write zeroBlock 0 itypeDir dot_short (by decide) (by unfold maxInodes at hd; omega)
  have hent : ∀ k e, (v.initialised d parent nb).ent d k = some e → (k = 0 ∧ e.1 = ".") ∨ (k = 1 ∧ e.1 = "..") := by
    intro k e hk
    have hk2 : k < 2 := by
      by_contra hge
      rw [ent_of_le (by rw [htotal]; omega)] at hk
      cases hk
    have hslot : (v.initialised d parent nb).ent d (0 * direntriesPerBlock + k) = slotEntry (dotBlock d parent) k :=
      hlaid.ent_eq (by rw [hN]; omega) (by unfold direntriesPerBlock; omega) hblk
    rw [Nat.zero_mul, Nat.zero_add] at hslot
    rw [hslot] at hk
    obtain rfl | rfl : k = 0 ∨ k = 1 := by omega
    · rw [hzero] at hk
      cases hk
      exact .inl ⟨rfl, rfl⟩
    · rw [hone] at hk
      cases hk
      exact .inr ⟨rfl, rfl⟩
  refine ⟨hlaid, fun i j e e' hi hj he => ?_⟩
  rcases hent i e hi with ⟨hi0, h1⟩ | ⟨hi0, h1⟩ <;> rcases hent j e' hj with ⟨hj0, h2⟩ | ⟨hj0, h2⟩
  · rw [hi0, hj0]
  · rw [h1, h2] at he
    exact absurd he (by decide)
  · rw [h1, h2] at he
    exact absurd he (by decide)
  · rw [hi0, hj0]

/-! ### Removing an entry -/

/-- `dir_unlink` clears a slot, where the directory itself does not lose its blocks. -/
theorem Removed.ent {block slot : Nat} {de : Dirent} (hr : Removed d s slot de v v') (hown : v.Owned)
    (hd : d < maxInodes) (h : Laid v d) (hs : leafSlot block = some s) (h0 : v.ref d s ≠ 0)
    (hslot : slot < direntriesPerBlock) (hcov : block * direntriesPerBlock + slot < (v.inodeAt d).totalEntries)
    (hkeeps : de.inode = d → satDec (v.inodeAt d).nlink ≠ 0#32) :
    Laid v' d ∧ ∀ j, v'.ent d j = if j = block * direntriesPerBlock + slot then none else v.ent d j := by
  obtain ⟨v₁, hdrop, rfl⟩ := hr
  have hsame₁ : Vol.Same d v v₁ := by
    by_cases hself : de.inode = d
    · refine (hdrop.touches_last hown).same d hd fun hT => hkeeps hself ?_
      rw [← hself]
      exact hT.2 (by rw [hself]; exact hd)
    · exact (hdrop.touches hown).same d hd fun he => hself he.symm
  have hbump := (hdrop.touches hown).owned.touches_bumped hd de.etype satDec
  have hsame := hsame₁.trans (hbump.same d hd id)
  generalize v₁.bumped d de.etype satDec = v₂ at hbump hsame ⊢
  have href : v₂.ref d s = v.ref d s := hsame.ref s
  have hblocks : ∀ j, (v₂.write (v.ref d s) (direntClear (v.blk (v.ref d s)) (slot * direntrySize))).dirBlock d j =
      if j = block then some (direntClear (v.blk (v.ref d s)) (slot * direntrySize)) else v.dirBlock d j := fun j => by
    rw [← href, hbump.owned.dirBlock_leaf hd hs (by rw [href]; exact h0), hsame.dirBlock]
  have htotal : ((v₂.write (v.ref d s) (direntClear (v.blk (v.ref d s)) (slot * direntrySize))).inodeAt d).totalEntries =
      (v.inodeAt d).totalEntries := by
    unfold totalEntries
    rw [inodeAt_write (not_table (hown.start d hd s h0) hd), hsame.size]
  have hclear : slotLen (direntClear (v.blk (v.ref d s)) (slot * direntrySize)) slot = 0 := nameLen_clear _
  obtain ⟨hlaid, hent⟩ := h.put (block_lt hcov) hslot (dirBlock_of_slot hs h0) htotal hcov hblocks
    (fun j hj => slot_clear_of_ne hj) (by rw [hclear]; omega)
  exact ⟨hlaid, fun j => by rw [hent, slotEntry_free hclear]⟩

end Maps

end OpenV.Vfs
