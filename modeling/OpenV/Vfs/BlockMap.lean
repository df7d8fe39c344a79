import OpenV.Vfs.Blocks

/- The block map of a file: what `alloc_block` and `get_file_block` do to the references
   of a volume. A missing block is added in up to three steps, each of which marks a free
   block, fills it with zeros and puts it into one empty slot (`Linked`). However many of
   them are taken before the space runs out, the file only grows (`Grows`): no reference
   goes away, nothing that is stored changes, and new data blocks have zeros. -/
namespace OpenV.Vfs

open Prog Slot Vol
namespace Vol
variable {v : Vol} {ino ino' b nb : Nat} {s : Slot} {d : Block} {n : RawInode}

/-! ## Allocation -/

/-- A block that `alloc_block` can return. -/
structure Free (v : Vol) (nb : Nat) : Prop where
  start : dataStart ≤ nb
  total : nb < v.total
  limit : nb < bitmapBits
  clear : v.bit nb = false

/-- The bit of a block set or cleared. -/
def mark (v : Vol) (nb : Nat) (value : Bool) : Vol :=
  v.write blockBitmapBlk (putBit (v.blk blockBitmapBlk) nb value)

/-- A new block with zeros. -/
def reserve (v : Vol) (nb : Nat) : Vol := (v.mark nb true).write nb zeroBlock

theorem Free.ne_zero (h : v.Free nb) : nb ≠ 0 := by
  have := h.start
  unfold dataStart at this
  omega

theorem Free.target (h : v.Free nb) : Target nb := by
  have := h.limit
  unfold bitmapBits at this
  exact target_of_dataStart_le h.start (by omega)

theorem Free.toNat (h : v.Free nb) : (BitVec.ofNat 32 nb).toNat = nb := by
  have := h.limit
  unfold bitmapBits at this
  rw [BitVec.toNat_ofNat, Nat.mod_eq_of_lt (by omega)]

theorem bit_write (h : blockBitmapBlk ≠ b) (k : Nat) : (v.write b d).bit k = v.bit k := by
  rw [bit, write_of_ne h, bit]

theorem bit_putInode (k : Nat) : (v.putInode ino n).bit k = v.bit k := by
  refine bit_write ?_ k
  unfold tableBlk inodeTableStart inodesPerBlock blockBitmapBlk
  omega

theorem bit_mark (value : Bool) (k : Nat) : (v.mark nb value).bit k = if k = nb then value else v.bit k := by
  rw [bit, mark, write_self, bitSet_putBit, bit]

theorem mark_of_ne (value : Bool) (h : b ≠ blockBitmapBlk) : (v.mark nb value).blk b = v.blk b := write_of_ne h

theorem inodeAt_mark (value : Bool) (ino : Nat) : (v.mark nb value).inodeAt ino = v.inodeAt ino := by
  refine inodeAt_write ?_
  unfold tableBlk inodeTableStart inodesPerBlock blockBitmapBlk
  omega

theorem Free.bitmap_ne (h : v.Free nb) : blockBitmapBlk ≠ nb := by
  have := h.start
  unfold dataStart at this
  unfold blockBitmapBlk
  omega

theorem Free.bit_reserve (h : v.Free nb) (k : Nat) : (v.reserve nb).bit k = if k = nb then true else v.bit k := by
  rw [reserve, bit_write h.bitmap_ne, bit_mark]

theorem reserve_of_ne (h : b ≠ blockBitmapBlk) (h' : b ≠ nb) : (v.reserve nb).blk b = v.blk b := by
  rw [reserve, write_of_ne h', mark_of_ne true h]

theorem Free.inodeAt_reserve (h : v.Free nb) (hino : ino < maxInodes) : (v.reserve nb).inodeAt ino = v.inodeAt ino := by
  rw [reserve, inodeAt_write (not_table h.start hino), inodeAt_mark]

theorem Free.inodeBitmap_ne (h : v.Free nb) : inodeBitmapBlk ≠ nb := by
  have := h.start
  unfold dataStart at this
  unfold inodeBitmapBlk
  omega

theorem Owned.ref_ne_low (h : v.Owned) (hb : b < dataStart) (hino : ino < maxInodes) (h0 : v.ref ino s ≠ 0) :
    v.ref ino s ≠ b := fun he => by
  have := h.start ino hino s h0
  omega

/-- A block of a file is none of those that a new block touches. -/
theorem Owned.ref_apart (h : v.Owned) (hf : v.Free nb) (hino : ino < maxInodes) (hino' : ino' < maxInodes)
    (h0 : v.ref ino s ≠ 0) : v.ref ino s ≠ blockBitmapBlk ∧ v.ref ino s ≠ nb ∧ v.ref ino s ≠ tableBlk ino' :=
  ⟨h.ref_ne_low (by decide) hino h0, h.unused hf.clear hf.ne_zero hino, (not_table (h.start ino hino s h0) hino').symm⟩

end Vol

section Alloc
variable {v : Vol} {bb : Nat}

theorem ensures_bitmapScan (hbb : Target bb) (m i : Nat) : (bitmapScan bb (v.blk bb) m i).ensures volume (fun r v' =>
    match r with
    | none => v' = v
    | some k => i ≤ k ∧ k < i + m ∧ k < bitmapBits ∧ bitSet (v.blk bb) k = false ∧
      v' = v.write bb (putBit (v.blk bb) k true)) v := by
  induction m generalizing i with
  | zero => exact rfl
  | succ m ih =>
    rw [bitmapScan]
    by_cases hi : bitmapBits ≤ i
    · rw [if_pos hi]
      exact ensures_panic _
    · rw [if_neg hi]
      by_cases hbit : bitSet (v.blk bb) i = false
      · rw [if_pos hbit]
        refine ensures_writeBlk hbb ?_
        exact ⟨Nat.le_refl i, by omega, by omega, hbit, rfl⟩
      · rw [if_neg hbit]
        refine ensures_mono (ih (i + 1)) fun r v' hr => ?_
        cases r with
        | none => exact hr
        | some k =>
          obtain ⟨h1, h2, h3⟩ := hr
          exact ⟨by omega, by omega, h3⟩

theorem ensures_allocBlock : allocBlock.ensures volume (fun r v' =>
    match r with
    | none => v' = v
    | some nb => v.Free nb ∧ v' = v.mark nb true) v := by
  rw [allocBlock, ensures_bind]
  refine ensures_totalBlocks ?_
  refine ensures_readBlk (by decide) ?_
  refine ensures_mono (ensures_bitmapScan (by decide) _ _) fun r v' hr => ?_
  cases r with
  | none => exact hr
  | some nb =>
    obtain ⟨h1, h2, h3, h4, h5⟩ := hr
    exact ⟨⟨h1, by omega, h3, h4⟩, h5⟩

theorem ensures_allocZeroed : allocZeroed.ensures volume (fun r v' =>
    match r with
    | none => v' = v
    | some nb => v.Free nb ∧ v' = v.reserve nb) v := by
  rw [allocZeroed, ensures_bind]
  refine ensures_mono ensures_allocBlock fun r v' hr => ?_
  cases r with
  | none => exact hr
  | some nb =>
    obtain ⟨hf, rfl⟩ := hr
    exact ensures_writeBlk hf.target ⟨hf, rfl⟩

end Alloc

/-! ## Links -/

/-- What the directory and file code keeps in an inode besides its blocks. -/
def RawInode.SameMeta (n n' : RawInode) : Prop := n'.itype = n.itype ∧ n'.size = n.size ∧ n'.nlink = n.nlink

namespace Vol
variable {v v' v₁ v₂ : Vol} {ino ino' b nb : Nat} {s p c : Slot} {i : Fin nptrs} {n : RawInode}

/-- The slot `c` of an inode has got the new block `nb`. -/
structure Linked (ino : Nat) (c : Slot) (nb : Nat) (v v' : Vol) : Prop where
  total : v'.total = v.total
  ref : ∀ ino' < maxInodes, ∀ s, v'.ref ino' s = if ino' = ino ∧ s = c then nb else v.ref ino' s
  bits : ∀ b, v'.bit b = if b = nb then true else v.bit b
  data : ∀ ino' < maxInodes, ∀ s, ¬s.Interior → v.ref ino' s ≠ 0 → v'.blk (v.ref ino' s) = v.blk (v.ref ino' s)
  zeros : v'.blk nb = zeroBlock
  inodes : ∀ ino' < maxInodes, ino' ≠ ino → v'.inodeAt ino' = v.inodeAt ino'
  inode : (v.inodeAt ino).SameMeta (v'.inodeAt ino)
  inodeBitmap : v'.blk inodeBitmapBlk = v.blk inodeBitmapBlk

theorem inodeBitmap_ne_table (ino : Nat) : inodeBitmapBlk ≠ tableBlk ino := by
  unfold tableBlk inodeTableStart inodesPerBlock inodeBitmapBlk
  omega

/-- A new block at a pointer of the inode, with zeros if it is to hold pointers. -/
theorem Owned.put_root {x : Block} {w : Vol} (h : v.Owned) (hf : v.Free nb) (hino : ino < maxInodes) {r : Root}
    (hr : n.root r = BitVec.ofNat 32 nb) (hothers : ∀ r', r' ≠ r → n.root r' = (v.inodeAt ino).root r')
    (hz : (root r).Interior → v.ref ino (.root r) = 0 ∧ x = zeroBlock)
    (hw : w = ((v.mark nb true).write nb x).putInode ino n) :
    (∀ ino' < maxInodes, ∀ s, v.ref ino' s ≠ 0 → w.blk (v.ref ino' s) = v.blk (v.ref ino' s)) ∧
    (∀ ino' < maxInodes, ino' ≠ ino → w.inodeAt ino' = v.inodeAt ino') ∧
    (∀ ino' < maxInodes, ∀ s, w.ref ino' s = if ino' = ino ∧ s = .root r then nb else v.ref ino' s) ∧
    (∀ b, w.bit b = if b = nb then true else v.bit b) ∧ w.blk inodeBitmapBlk = v.blk inodeBitmapBlk := by
  have hkept : ∀ ino' < maxInodes, ∀ s, v.ref ino' s ≠ 0 → w.blk (v.ref ino' s) = v.blk (v.ref ino' s) :=
    fun ino' hi s hne => by
      obtain ⟨h1, h2, h3⟩ := h.ref_apart hf hi hino hne
      rw [hw, putInode_of_ne h3, write_of_ne h2, mark_of_ne true h1]
  have hinodes : ∀ i < maxInodes, i ≠ ino → w.inodeAt i = v.inodeAt i := fun i hi hne => by
    rw [hw, inodeAt_putInode_of_ne hne, inodeAt_write (not_table hf.start hi), inodeAt_mark]
  have hblk : w.blk nb = x := by rw [hw, putInode_of_ne (not_table hf.start hino).symm, write_self]
  refine ⟨hkept, hinodes, ref_link hf.ne_zero (fun ino' hi r' => ?_) (fun ino' hi s p i hp hne => ?_) nofun
    (fun hi => ⟨(hz hi).1, hblk.trans (hz hi).2⟩), fun k => ?_, ?_⟩
  · by_cases hi' : ino' = ino
    · subst hi'
      rw [ref, hw, inodeAt_putInode_self]
      by_cases hrr : r' = r
      · subst hrr
        rw [if_pos ⟨rfl, rfl⟩]
        show (n.root r').toNat = nb
        rw [hr, hf.toNat]
      · rw [if_neg fun h => hrr (root.inj h.2)]
        show (n.root r').toNat = ((v.inodeAt ino').root r').toNat
        rw [hothers r' hrr]
    · rw [if_neg fun h => hi' h.1, ref, hinodes ino' hi hi']
      rfl
  · have hne' : ¬(ino' = ino ∧ s = .root r) := fun h => by
      rw [h.2] at hp
      cases hp
    rw [if_neg hne', ptr, hkept ino' hi p hne, ptr]
  · rw [hw, bit_putInode, bit_write hf.bitmap_ne, bit_mark]
  · rw [hw, putInode_of_ne (inodeBitmap_ne_table ino), write_of_ne hf.inodeBitmap_ne, mark_of_ne true (by decide)]

theorem Owned.link_root (h : v.Owned) (hf : v.Free nb) (hino : ino < maxInodes) {r : Root}
    (h0 : v.ref ino (.root r) = 0) (hr : n.root r = BitVec.ofNat 32 nb)
    (hothers : ∀ r', r' ≠ r → n.root r' = (v.inodeAt ino).root r') (hmeta : (v.inodeAt ino).SameMeta n) :
    Linked ino (.root r) nb v ((v.reserve nb).putInode ino n) := by
  obtain ⟨hkept, hinodes, href, hbits, hmap⟩ := h.put_root hf hino hr hothers (fun _ => ⟨h0, rfl⟩) rfl
  refine ⟨rfl, href, hbits, fun ino' hi s _ => hkept ino' hi s, ?_, hinodes, ?_, hmap⟩
  · rw [putInode_of_ne (not_table hf.start hino).symm, reserve, write_self]
  · rw [inodeAt_putInode_self]
    exact hmeta

/-- A new block at a pointer of an indirect block. -/
theorem Owned.link_entry (h : v.Owned) (hf : v.Free nb) (hino : ino < maxInodes) (hp : c.parent = some (p, i))
    (hp0 : v.ref ino p ≠ 0) (h0 : v.ref ino c = 0) (hroots : ∀ r, n.root r = (v.inodeAt ino).root r)
    (hmeta : (v.inodeAt ino).SameMeta n) : Linked ino c nb v (((v.reserve nb).write (v.ref ino p)
      (putU32 (v.blk (v.ref ino p)) (i * 4) (BitVec.ofNat 32 nb))).putInode ino n) := by
  obtain ⟨hpb, hpn, hpt⟩ := h.ref_apart hf hino hino hp0
  generalize hw : ((v.reserve nb).write (v.ref ino p)
    (putU32 (v.blk (v.ref ino p)) (i * 4) (BitVec.ofNat 32 nb))).putInode ino n = w
  -- blocks of other slots are not touched
  have hkept : ∀ {ino' s}, ino' < maxInodes → v.ref ino' s ≠ 0 → ¬(ino' = ino ∧ s = p) →
      w.blk (v.ref ino' s) = v.blk (v.ref ino' s) := fun hi hne hother => by
    obtain ⟨h1, h2, h3⟩ := h.ref_apart hf hi hino hne
    rw [← hw, putInode_of_ne h3, write_of_ne fun he => hother (h.once _ hi _ hino _ _ hne he), reserve_of_ne h1 h2]
  have hinodes : ∀ i' < maxInodes, i' ≠ ino → w.inodeAt i' = v.inodeAt i' := fun i' hi hne => by
    rw [← hw, inodeAt_putInode_of_ne hne, inodeAt_write (not_table (h.start ino hino p hp0) hi), hf.inodeAt_reserve hi]
  have hzeros : w.blk nb = zeroBlock := by
    rw [← hw, putInode_of_ne (not_table hf.start hino).symm, write_of_ne hpn.symm, reserve, write_self]
  have hroot : ∀ r, root r ≠ c := fun r he => by
    rw [← he] at hp
    cases hp
  refine ⟨by rw [← hw]; rfl, ref_link hf.ne_zero (fun ino' hi r => ?_) (fun ino' hi s q j hq hne => ?_) (fun q j hq => ?_)
    (fun _ => ⟨h0, hzeros⟩), fun k => ?_, fun ino' hi s hs hne => hkept hi hne fun he => ?_, hzeros, hinodes, ?_, ?_⟩
  · rw [if_neg fun he => hroot r he.2]
    by_cases hi' : ino' = ino
    · subst hi'
      rw [ref, ← hw, inodeAt_putInode_self]
      show (n.root r).toNat = ((v.inodeAt ino').root r).toNat
      rw [hroots r]
    · rw [ref, hinodes ino' hi hi']
      rfl
  · by_cases hsame : ino' = ino ∧ q = p
    · -- the block that is written
      obtain ⟨rfl, rfl⟩ := hsame
      rw [ptr, ← hw, putInode_of_ne hpt, write_self, ptr]
      by_cases hj : j = i
      · subst hj
        rw [if_pos ⟨rfl, eq_of_parent hq hp⟩, u32Le_putU32, hf.toNat]
      · have hsc : s ≠ c := fun he => by
          rw [he, hp] at hq
          exact hj (Prod.ext_iff.mp (Option.some.inj hq)).2.symm
        rw [if_neg fun he => hsc he.2, u32Le_putU32_of_disjoint]
    · have hsc : ¬(ino' = ino ∧ s = c) := by
        rintro ⟨rfl, rfl⟩
        rw [hp] at hq
        exact hsame ⟨rfl, (Prod.ext_iff.mp (Option.some.inj hq)).1.symm⟩
      rw [if_neg hsc, ptr, hkept hi hne hsame, ptr]
  · rw [hp] at hq
    cases hq
    exact hp0
  · rw [← hw, bit_putInode, bit_write hpb.symm, hf.bit_reserve]
  · exact hs (he.2 ▸ interior_of_parent hp)
  · rw [← hw, inodeAt_putInode_self]
    exact hmeta
  · have hpm : inodeBitmapBlk ≠ v.ref ino p := (h.ref_ne_low (by decide) hino hp0).symm
    rw [← hw, putInode_of_ne (inodeBitmap_ne_table ino), write_of_ne hpm, reserve_of_ne (by decide) hf.inodeBitmap_ne]

/-! ## Growth -/

/-- An inode has got blocks, and nothing else that is stored has changed. -/
structure Grows (ino : Nat) (v v' : Vol) : Prop where
  owned : v'.Owned
  total : v'.total = v.total
  kept : ∀ ino' < maxInodes, ∀ s, v.ref ino' s ≠ 0 → v'.ref ino' s = v.ref ino' s
  others : ∀ ino' < maxInodes, ino' ≠ ino → ∀ s, v'.ref ino' s = v.ref ino' s
  data : ∀ ino' < maxInodes, ∀ s, ¬s.Interior → v.ref ino' s ≠ 0 → v'.blk (v.ref ino' s) = v.blk (v.ref ino' s)
  fresh : ∀ s, ¬s.Interior → v.ref ino s = 0 → v'.ref ino s ≠ 0 → v'.blk (v'.ref ino s) = zeroBlock
  marks : ∀ b, v.bit b = true → v'.bit b = true
  inodes : ∀ ino' < maxInodes, ino' ≠ ino → v'.inodeAt ino' = v.inodeAt ino'
  inode : (v.inodeAt ino).SameMeta (v'.inodeAt ino)
  inodeBitmap : v'.blk inodeBitmapBlk = v.blk inodeBitmapBlk

theorem Grows.refl (h : v.Owned) (ino : Nat) : Grows ino v v :=
  ⟨h, rfl, fun _ _ _ _ => rfl, fun _ _ _ _ => rfl, fun _ _ _ _ _ => rfl, fun _ _ h0 h1 => absurd h0 h1, fun _ h => h,
    fun _ _ _ => rfl, ⟨rfl, rfl, rfl⟩, rfl⟩

theorem Grows.trans (hino : ino < maxInodes) (h₁ : Grows ino v v₁) (h₂ : Grows ino v₁ v₂) : Grows ino v v₂ := by
  have hne : ∀ {i s}, i < maxInodes → v.ref i s ≠ 0 → v₁.ref i s ≠ 0 := fun hi h0 => by
    rw [h₁.kept _ hi _ h0]
    exact h0
  refine ⟨h₂.owned, h₂.total.trans h₁.total, fun i hi s h0 => ?_, fun i hi hio s => ?_, fun i hi s hs h0 => ?_,
    fun s hs h0 h2 => ?_, fun b hb => h₂.marks b (h₁.marks b hb), fun i hi hio => ?_, ?_,
    h₂.inodeBitmap.trans h₁.inodeBitmap⟩
  · rw [h₂.kept i hi s (hne hi h0), h₁.kept i hi s h0]
  · rw [h₂.others i hi hio, h₁.others i hi hio]
  · have hdata := h₂.data i hi s hs (hne hi h0)
    rw [h₁.kept i hi s h0, h₁.data i hi s hs h0] at hdata
    exact hdata
  · by_cases h1 : v₁.ref ino s = 0
    · exact h₂.fresh s hs h1 h2
    · rw [h₂.kept ino hino s h1, h₂.data ino hino s hs h1]
      exact h₁.fresh s hs h0 h1
  · rw [h₂.inodes i hi hio, h₁.inodes i hi hio]
  · obtain ⟨ht, hs, hn⟩ := h₁.inode
    obtain ⟨ht', hs', hn'⟩ := h₂.inode
    exact ⟨ht'.trans ht, hs'.trans hs, hn'.trans hn⟩

/-- A link into an empty slot is growth. -/
theorem Linked.grows (hl : Linked ino c nb v v') (h : v.Owned) (hino : ino < maxInodes) (hf : v.Free nb)
    (h0 : v.ref ino c = 0) : Grows ino v v' := by
  have hother : ∀ {i s}, v.ref i s ≠ 0 → ¬(i = ino ∧ s = c) := by
    rintro i s hne ⟨rfl, rfl⟩
    exact hne h0
  refine ⟨h.link hf.clear hf.start hf.limit hl.ref hl.bits, hl.total, fun i hi s hne => ?_, fun i hi hio s => ?_, hl.data,
    fun s hs hz hne => ?_, fun b hb => ?_, hl.inodes, hl.inode, hl.inodeBitmap⟩
  · rw [hl.ref i hi, if_neg (hother hne)]
  · rw [hl.ref i hi, if_neg fun he => hio he.1]
  · rw [hl.ref ino hino] at hne ⊢
    split_ifs at hne ⊢ with he
    · exact hl.zeros
    · exact absurd hz hne
  · rw [hl.bits]
    split_ifs
    · rfl
    · exact hb

end Vol

/-! ## The block of an index -/

/-- The slot of the data block with an index in its file. -/
def leafSlot (idx : Nat) : Option Slot :=
  if h : idx < 12 then some (.root (.direct ⟨idx, h⟩))
  else if h : idx - 12 < nptrs then some (.single ⟨idx - 12, h⟩)
  else if h : (idx - 12 - nptrs) / nptrs < nptrs then
    some (.inner ⟨(idx - 12 - nptrs) / nptrs, h⟩ ⟨(idx - 12 - nptrs) % nptrs, Nat.mod_lt _ (by decide)⟩)
  else none

theorem leafSlot_leaf {idx : Nat} {s : Slot} (h : leafSlot idx = some s) : ¬s.Interior := by
  unfold leafSlot at h
  split_ifs at h <;> cases h <;> exact fun h => h

namespace Vol

/-- The block of a slot, if there is one. -/
def slotBlock (v : Vol) (n : RawInode) (s : Slot) : Option Nat := if v.refIn n s = 0 then none else some (v.refIn n s)

/-- The data block with an index, if there is one. -/
def fileBlock (v : Vol) (n : RawInode) (idx : Nat) : Option Nat := (leafSlot idx).bind (v.slotBlock n)

theorem slotBlock_eq_none {v : Vol} {n : RawInode} {s : Slot} (h : v.refIn n s = 0) : v.slotBlock n s = none := if_pos h

end Vol

section GetFileBlock
variable {v : Vol} {ino : Nat} {n : RawInode} {idx : Nat} {alloc : Bool} {c p : Slot} {i : Fin nptrs}

/-- One level further down: nothing if the level above is missing. -/
def descend (above : FsProg (Option Nat × RawInode)) (ino i : Nat) (alloc : Bool) : FsProg (Option Nat × RawInode) := do
  match ← above with
  | (none, n) => pure (none, n)
  | (some b, n) => entryBlock n ino b i alloc

/-- The way of `get_file_block` to the block of a slot. -/
def slotWay (n : RawInode) (ino : Nat) (alloc : Bool) : Slot → FsProg (Option Nat × RawInode)
  | .root r => rootBlock n ino r alloc
  | .single i => descend (rootBlock n ino .indirect alloc) ino i alloc
  | .outer i => descend (rootBlock n ino .doubleIndirect alloc) ino i alloc
  | .inner i j => descend (descend (rootBlock n ino .doubleIndirect alloc) ino i alloc) ino j alloc

theorem slotWay_of_parent (hp : c.parent = some (p, i)) :
    slotWay n ino alloc c = descend (slotWay n ino alloc p) ino i alloc := by
  cases c <;> cases hp <;> rfl

theorem getFileBlock_eq : getFileBlock n ino idx alloc = (leafSlot idx).elim (pure (none, n)) (slotWay n ino alloc) := by
  rw [getFileBlock, leafSlot]
  by_cases h1 : idx < 12
  · rw [dif_pos h1, dif_pos h1]
    rfl
  rw [dif_neg h1, dif_neg h1]
  by_cases h2 : idx - 12 < nptrs
  · rw [if_pos h2, dif_pos h2]
    rfl
  rw [if_neg h2, dif_neg h2]
  by_cases h3 : (idx - 12 - nptrs) / nptrs < nptrs
  · rw [dif_pos h3]
    refine (if_neg (Nat.not_le.mpr h3)).trans (Eq.trans ?_ (Prog.bind_assoc ..).symm)
    refine congrArg (rootBlock n ino .doubleIndirect alloc >>= ·) (funext fun res => ?_)
    obtain ⟨_ | b, n⟩ := res <;> rfl
  · rw [dif_neg h3]
    exact if_pos (Nat.not_lt.mp h3)

/-- Without allocation a pointer is read. -/
theorem ensures_followed {w : BitVec 32} (hw : v.refIn n c = w.toNat) {fill : FsProg (Option Nat × RawInode)} :
    (if w ≠ 0#32 then pure (some w.toNat, n) else if false = false then pure (none, n) else fill :
      FsProg (Option Nat × RawInode)).ensures volume (fun res v' => v' = v ∧ res = (v.slotBlock n c, n)) v := by
  by_cases h : w = 0#32
  · rw [if_neg (not_not.mpr h), slotBlock_eq_none (by rw [hw, h]; rfl)]
    exact ⟨rfl, rfl⟩
  · have hne : w.toNat ≠ 0 := fun h' => h (BitVec.eq_of_toNat_eq h')
    rw [if_pos h, slotBlock, hw, if_neg hne]
    exact ⟨rfl, rfl⟩

theorem ensures_slotWay_false (hn : ∀ p : Slot, p.Interior → v.refIn n p ≠ 0 → Ofs.Data (v.refIn n p)) (c : Slot) :
    (slotWay n ino false c).ensures volume (fun res v' => v' = v ∧ res = (v.slotBlock n c, n)) v := by
  induction c using parent_induction with
  | hroot r =>
    exact ensures_followed rfl
  | hstep c p i hp ih =>
    rw [slotWay_of_parent hp, descend, ensures_bind]
    refine ensures_mono ih fun res v' hres => ?_
    obtain ⟨rfl, rfl⟩ := hres
    by_cases h0 : v'.refIn n p = 0
    · rw [slotBlock_eq_none h0, slotBlock_eq_none (refIn_eq_zero hp h0)]
      exact ⟨rfl, rfl⟩
    · rw [slotBlock, if_neg h0]
      dsimp only
      refine ensures_readBlk (hn p (interior_of_parent hp) h0) (ensures_followed ?_)
      exact (refIn_of_parent hp).trans (entry_of_ne h0 i)

/-- `get_file_block` without allocation changes nothing. -/
theorem ensures_getFileBlock_false (hn : ∀ p : Slot, p.Interior → v.refIn n p ≠ 0 → Ofs.Data (v.refIn n p)) (idx : Nat) :
    (getFileBlock n ino idx false).ensures volume (fun res v' => v' = v ∧ res = (v.fileBlock n idx, n)) v := by
  rw [getFileBlock_eq, fileBlock]
  cases leafSlot idx with
  | none => exact ⟨rfl, rfl⟩
  | some s => exact ensures_slotWay_false hn s

/-! ## Allocation on demand -/

/-- What a step of `get_file_block` on an inode may return for a slot: the inode has grown, and the block is the
slot's. -/
def Vol.Provides (v : Vol) (ino : Nat) (c : Slot) (res : Option Nat × RawInode) (v' : Vol) : Prop :=
  Vol.Grows ino v v' ∧ res.2 = v'.inodeAt ino ∧ ∀ b, res.1 = some b → b ≠ 0 ∧ v'.ref ino c = b

theorem Vol.Provides.same (h : v.Owned) {r : Option Nat} (hr : ∀ b, r = some b → b ≠ 0 ∧ v.ref ino c = b) :
    v.Provides ino c (r, v.inodeAt ino) v := ⟨.refl h ino, rfl, hr⟩

theorem Vol.Linked.provides {v' : Vol} {nb : Nat} (hl : Vol.Linked ino c nb v v') (h : v.Owned) (hino : ino < maxInodes)
    (hf : v.Free nb) (h0 : v.ref ino c = 0) {res : Option Nat × RawInode} (hres : res = (some nb, v'.inodeAt ino)) :
    v.Provides ino c res v' := by
  subst hres
  refine ⟨hl.grows h hino hf h0, rfl, fun b hb => ?_⟩
  cases hb
  refine ⟨hf.ne_zero, ?_⟩
  rw [hl.ref ino hino, if_pos ⟨rfl, rfl⟩]

/-- A pointer is followed, or filled with a new block if it is to be. -/
theorem ensures_filled (h : v.Owned) {w : BitVec 32} (hw : v.ref ino c = w.toNat) (alloc : Bool)
    {put : Nat → FsProg (Option Nat × RawInode)}
    (hput : ∀ nb, v.Free nb → v.ref ino c = 0 → (put nb).ensures volume (v.Provides ino c) (v.reserve nb)) :
    (if w ≠ 0#32 then pure (some w.toNat, v.inodeAt ino) else if alloc = false then pure (none, v.inodeAt ino) else do
      match ← allocZeroed with
      | none => pure (none, v.inodeAt ino)
      | some blk => put blk : FsProg (Option Nat × RawInode)).ensures volume (v.Provides ino c) v := by
  by_cases h0 : w = 0#32
  · rw [if_neg (not_not.mpr h0)]
    cases alloc with
    | false => exact .same h fun b hb => by cases hb
    | true =>
      rw [if_neg (by decide), ensures_bind]
      refine ensures_mono ensures_allocZeroed fun res v' hres => ?_
      cases res with
      | none =>
        subst hres
        exact .same h fun b hb => by cases hb
      | some nb =>
        obtain ⟨hf, rfl⟩ := hres
        exact hput nb hf (by rw [hw, h0]; rfl)
  · rw [if_pos h0]
    refine .same h fun b hb => ?_
    cases hb
    exact ⟨fun h' => h0 (BitVec.eq_of_toNat_eq h'), hw⟩

theorem ensures_rootBlock (h : v.Owned) (hino : ino < maxInodes) (r : Root) (alloc : Bool) :
    (rootBlock (v.inodeAt ino) ino r alloc).ensures volume (v.Provides ino (.root r)) v := by
  refine ensures_filled h rfl alloc fun nb hf href => ?_
  simp only [ensures_bind]
  refine ensures_writeInode hino ?_
  refine (h.link_root hf hino href ?_ (fun r' hr' => ?_) ?_).provides h hino hf href ?_
  · cases r <;> simp [RawInode.root, RawInode.setRoot]
  · cases r <;> cases r' <;> simp_all [RawInode.root, RawInode.setRoot]
  · cases r <;> exact ⟨rfl, rfl, rfl⟩
  · rw [inodeAt_putInode_self]

theorem ensures_entryBlock (h : v.Owned) (hino : ino < maxInodes) (hp : c.parent = some (p, i)) (hp0 : v.ref ino p ≠ 0)
    (alloc : Bool) : (entryBlock (v.inodeAt ino) ino (v.ref ino p) i alloc).ensures volume (v.Provides ino c) v := by
  have hentry : v.ref ino c = (u32Le (v.blk (v.ref ino p)) (i * 4)).toNat :=
    (refIn_of_parent hp).trans (entry_of_ne hp0 i)
  refine ensures_readBlk (h.ref_target hino hp0).2.2 ?_
  refine ensures_filled h hentry alloc fun nb hf href => ?_
  simp only [ensures_bind]
  refine ensures_writeBlk (h.ref_target hino hp0) ?_
  refine ensures_writeInode hino ?_
  refine (h.link_entry hf hino hp hp0 href (fun r => ?_) ?_).provides h hino hf href ?_
  · cases r <;> rfl
  · exact ⟨rfl, rfl, rfl⟩
  · rw [inodeAt_putInode_self]

theorem ensures_slotWay (h : v.Owned) (hino : ino < maxInodes) (alloc : Bool) (c : Slot) :
    (slotWay (v.inodeAt ino) ino alloc c).ensures volume (v.Provides ino c) v := by
  induction c using parent_induction with
  | hroot r => exact ensures_rootBlock h hino r alloc
  | hstep c p i hp ih =>
    rw [slotWay_of_parent hp, descend, ensures_bind]
    refine ensures_mono ih fun res v' hres => ?_
    obtain ⟨_ | b, n⟩ := res
    · exact ⟨hres.1, hres.2.1, nofun⟩
    · obtain ⟨hg, rfl, hb⟩ := hres
      obtain ⟨hne, rfl⟩ := hb b rfl
      refine ensures_mono (ensures_entryBlock hg.owned hino hp hne alloc) fun res v'' hres => ?_
      exact ⟨hg.trans hino hres.1, hres.2⟩

/-- `get_file_block` on the inode of an owned volume. -/
theorem ensures_getFileBlock (h : v.Owned) (hino : ino < maxInodes) (idx : Nat) (alloc : Bool) :
    (getFileBlock (v.inodeAt ino) ino idx alloc).ensures volume (fun res v' => Vol.Grows ino v v' ∧
      res.2 = v'.inodeAt ino ∧ ∀ b, res.1 = some b → ∃ s, leafSlot idx = some s ∧ b ≠ 0 ∧ v'.ref ino s = b) v := by
  rw [getFileBlock_eq]
  cases leafSlot idx with
  | none => exact ⟨.refl h ino, rfl, nofun⟩
  | some s =>
    refine ensures_mono (ensures_slotWay h hino alloc s) fun res v' hr => ?_
    exact ⟨hr.1, hr.2.1, fun b hb => ⟨s, rfl, hr.2.2 b hb⟩⟩

end GetFileBlock

/-! ## What the block map asks for -/

/-- The request is none for an inode. -/
def Request.Plain : Request → Prop
  | readInode _ => False
  | _ => True

/-- An inode that is not in the cache is read from the table. -/
theorem fresh_of_uncached {s : OfsState} {ino : Nat} (h : s.Sound) (hc : s.cache.get ino = none) :
    Fresh (.readInode ino) s := fun hino => by
  rw [h.readInode hino, hc]

theorem fresh_of_plain (q : Request) (s : OfsState) (h : q.Plain) : Fresh q s := by
  cases q <;> trivial

section Requests
variable {C : Request → Prop} {n : RawInode} {ino : Nat} {alloc : Bool}

theorem within_bitmapAlloc (hC : ∀ q : Request, q.Plain → C q) (bb start limit : Nat) :
    (bitmapAlloc bb start limit).Within C := by
  have hscan : ∀ buf m i, (bitmapScan bb buf m i).Within C := by
    intro buf m
    induction m with
    | zero => exact fun _ => .pure _
    | succ m ih =>
      intro i
      refine .ite (fun _ => ⟨hC _ trivial, fun r => nomatch r⟩) fun _ => .ite (fun _ => ?_) fun _ => ih (i + 1)
      exact .bind (.request (hC _ trivial)) fun _ => .pure _
  exact .bindSome (.request (hC _ trivial)) fun buf => hscan buf _ _

theorem within_allocZeroed (hC : ∀ q : Request, q.Plain → C q) : allocZeroed.Within C := by
  refine .bindSome (.bind (.request (hC _ trivial)) fun _ => within_bitmapAlloc hC ..) fun blk => ?_
  exact .bind (.request (hC _ trivial)) fun _ => .pure _

theorem within_writeInode (hC : ∀ q : Request, q.Plain → C q) (ino : Nat) (n : RawInode) : (writeInode ino n).Within C := by
  refine .early fun _ => ?_
  refine .bind (.request (hC _ trivial)) fun _ => .bindSome (.request (hC _ trivial)) fun buf => ?_
  exact .request (hC _ trivial)

theorem within_rootBlock (halloc : alloc = true → ∀ q : Request, q.Plain → C q) (r : Root) :
    (rootBlock n ino r alloc).Within C := by
  refine .early fun _ => .early fun ha => ?_
  have hC := halloc (Bool.not_eq_false alloc |>.mp ha)
  exact .bindSome (within_allocZeroed hC) fun b => .bind (within_writeInode hC ..) fun _ => .pure _

theorem within_entryBlock (hread : ∀ b, C (.readBlk b)) (halloc : alloc = true → ∀ q : Request, q.Plain → C q)
    (b i : Nat) : (entryBlock n ino b i alloc).Within C := by
  refine .bindSome (.request (hread b)) fun buf => ?_
  refine .early fun _ => .early fun ha => ?_
  have hC := halloc (Bool.not_eq_false alloc |>.mp ha)
  refine .bindSome (within_allocZeroed hC) fun b => ?_
  exact .bind (.request (hC _ trivial)) fun _ => .bind (within_writeInode hC ..) fun _ => .pure _

/-- What `get_file_block` asks for: it reads blocks, and if it is to allocate, it does all but read inodes. -/
theorem within_getFileBlock (hread : ∀ b, C (.readBlk b)) (halloc : alloc = true → ∀ q : Request, q.Plain → C q)
    (idx : Nat) : (getFileBlock n ino idx alloc).Within C := by
  have hway (c : Slot) : (slotWay n ino alloc c).Within C := by
    induction c using parent_induction with
    | hroot r => exact within_rootBlock halloc r
    | hstep c p i hp ih =>
      rw [slotWay_of_parent hp]
      refine .bind ih fun res => ?_
      obtain ⟨_ | b, n⟩ := res
      · exact .pure _
      · exact within_entryBlock hread halloc ..
  rw [getFileBlock_eq]
  cases leafSlot idx with
  | none => exact .pure _
  | some s => exact hway s

end Requests
end OpenV.Vfs
