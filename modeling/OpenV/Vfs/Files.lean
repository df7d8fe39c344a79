import OpenV.Vfs.Truncate

/- The contents of files. A byte of a file is the byte of the block that the slot of its
   index refers to; `file_read` returns these bytes and `file_write` changes those of the
   range it is given, whatever the number of rounds and the levels of indirection, and no
   byte of another file. -/
namespace OpenV.Vfs

open Prog Vol

/-! ## Indices and slots -/

/-- The index in its file of the data block of a slot. -/
def Slot.index : Slot → Nat
  | .root (.direct i) => i
  | .single i => 12 + i
  | .inner i j => 12 + nptrs + (nptrs * i + j)
  | _ => 0

variable {idx : Nat} {s : Slot}

theorem leafSlot_index (h : leafSlot idx = some s) : s.index = idx := by
  unfold leafSlot at h
  split_ifs at h with h1 h2 h3
  · cases h
    rfl
  · cases h
    show 12 + (idx - 12) = idx
    omega
  · cases h
    show 12 + nptrs + (nptrs * ((idx - 12 - nptrs) / nptrs) + (idx - 12 - nptrs) % nptrs) = idx
    rw [Nat.div_add_mod]
    omega

/-- The blocks a file can have. -/
def maxFileBlocks : Nat := 12 + nptrs + nptrs * nptrs

theorem leafSlot_lt (h : leafSlot idx = some s) : idx < maxFileBlocks := by
  unfold leafSlot at h
  unfold maxFileBlocks
  split_ifs at h with h1 h2 h3
  · omega
  · omega
  · have := (Nat.div_lt_iff_lt_mul (show 0 < nptrs by decide)).mp h3
    omega

namespace Vol
variable {v v' : Vol} {ino ino' b pos : Nat} {s : Slot} {n : RawInode} {d : Block}

theorem fileBlock_eq_some : v.fileBlock n b = some pos ↔ ∃ s, leafSlot b = some s ∧ v.refIn n s ≠ 0 ∧ v.refIn n s = pos := by
  rw [fileBlock, Option.bind_eq_some_iff]
  refine exists_congr fun s => and_congr_right fun _ => ?_
  unfold slotBlock
  split_ifs with h0
  · exact ⟨(fun h => by cases h), fun h => absurd h0 h.1⟩
  · exact ⟨fun h => ⟨h0, Option.some.inj h⟩, fun h => congrArg some h.2⟩

/-- A file whose first `m` blocks are there has no more of them than the bitmap has bits. -/
theorem Owned.blocks_le (h : v.Owned) (hino : ino < maxInodes) {m : Nat}
    (hm : ∀ idx < m, v.fileBlock (v.inodeAt ino) idx ≠ none) : m ≤ bitmapBits := by
  have hslot : ∀ idx : Fin m, ∃ s, leafSlot idx = some s ∧ v.ref ino s ≠ 0 := fun idx => by
    obtain ⟨b, hb⟩ := Option.ne_none_iff_exists'.mp (hm idx idx.isLt)
    obtain ⟨s, hs, h0, _⟩ := fileBlock_eq_some.mp hb
    exact ⟨s, hs, h0⟩
  choose f hf hf0 using hslot
  have hinj : Function.Injective fun idx => (⟨v.ref ino (f idx), h.limit ino hino (f idx)⟩ : Fin bitmapBits) := by
    intro i j hij
    have hs := (h.once ino hino ino hino (f i) (f j) (hf0 i) (Fin.mk.inj hij)).2
    refine Fin.ext ?_
    rw [← leafSlot_index (hf i), ← leafSlot_index (hf j), hs]
  have hcard := Fintype.card_le_of_injective _ hinj
  rwa [Fintype.card_fin, Fintype.card_fin] at hcard

/-! ## Blocks and bytes -/

/-- The contents of a block of a file or directory, if it is there. -/
def dirBlock (v : Vol) (dir block : Nat) : Option Block := (v.fileBlock (v.inodeAt dir) block).map v.blk

theorem dirBlock_of_slot (hs : leafSlot b = some s) (h0 : v.ref ino s ≠ 0) :
    v.dirBlock ino b = some (v.blk (v.ref ino s)) := by
  rw [dirBlock, fileBlock_eq_some.mpr ⟨s, hs, h0, rfl⟩]
  rfl

theorem slot_of_dirBlock (hb : v.dirBlock ino b = some d) :
    ∃ s, leafSlot b = some s ∧ v.ref ino s ≠ 0 ∧ d = v.blk (v.ref ino s) := by
  obtain ⟨blk, hblk, rfl⟩ := Option.map_eq_some_iff.mp hb
  obtain ⟨s, hs, h0, rfl⟩ := fileBlock_eq_some.mp hblk
  exact ⟨s, hs, h0, rfl⟩

theorem dirBlock_congr (h : ∀ s, leafSlot b = some s → v'.ref ino s = v.ref ino s ∧
    (v.ref ino s ≠ 0 → v'.blk (v.ref ino s) = v.blk (v.ref ino s))) : v'.dirBlock ino b = v.dirBlock ino b := by
  have hblock : v'.fileBlock (v'.inodeAt ino) b = v.fileBlock (v.inodeAt ino) b := by
    refine Option.bind_congr fun s hs => ?_
    show (if v'.ref ino s = 0 then none else some (v'.ref ino s)) = if v.ref ino s = 0 then none else some (v.ref ino s)
    rw [(h s hs).1]
  rw [dirBlock, hblock]
  refine Option.map_congr fun blk hblk => ?_
  obtain ⟨s, hs, h0, rfl⟩ := fileBlock_eq_some.mp hblk
  exact (h s hs).2 h0

/-- Growth keeps the blocks there are. -/
theorem Grows.dirBlock (hg : Grows ino v v') (hino' : ino' < maxInodes) (hb : v.dirBlock ino' b = some d) :
    v'.dirBlock ino' b = some d := by
  obtain ⟨s, hs, h0, rfl⟩ := slot_of_dirBlock hb
  have hkept := hg.kept ino' hino' s h0
  rw [dirBlock_of_slot hs (by rw [hkept]; exact h0), hkept, hg.data ino' hino' s (leafSlot_leaf hs) h0]

variable {idx : Nat} {x : BitVec 8}

/-- A data block is written: it is the one of its index, and no other changes. -/
theorem Owned.dirBlock_write (h : v.Owned) (hino : ino < maxInodes) (hs : leafSlot idx = some s)
    (h0 : v.ref ino s ≠ 0) (hino' : ino' < maxInodes) (d : Block) (j : Nat) :
    (v.write (v.ref ino s) d).dirBlock ino' j = if ino' = ino ∧ j = idx then some d else v.dirBlock ino' j := by
  have href := ref_write (d := d) (h.start ino hino s h0) (h.not_pointers hino (leafSlot_leaf hs) h0) hino'
  split_ifs with hj
  · obtain ⟨rfl, rfl⟩ := hj
    rw [dirBlock_of_slot hs (by rw [href]; exact h0), href, write_self]
  · refine dirBlock_congr fun t ht => ⟨href t, fun ht0 => write_of_ne fun he => hj ?_⟩
    obtain ⟨hi, rfl⟩ := h.once ino' hino' ino hino t s ht0 he
    exact ⟨hi, by rw [← leafSlot_index ht, leafSlot_index hs]⟩

/-- A byte of a file, if its block is there. -/
def byte (v : Vol) (ino pos : Nat) : Option (BitVec 8) :=
  (v.fileBlock (v.inodeAt ino) (pos / blockSize)).map fun b => v.blk b (pos % blockSize)

theorem byte_eq : v.byte ino pos = (v.dirBlock ino (pos / blockSize)).map (· (pos % blockSize)) := by
  rw [dirBlock, Option.map_map]
  rfl

theorem byte_congr (h : v'.dirBlock ino (pos / blockSize) = v.dirBlock ino (pos / blockSize)) :
    v'.byte ino pos = v.byte ino pos := by
  rw [byte_eq, h, byte_eq]

theorem byte_eq_some : v.byte ino pos = some x ↔
    ∃ s, leafSlot (pos / blockSize) = some s ∧ v.ref ino s ≠ 0 ∧ v.blk (v.ref ino s) (pos % blockSize) = x := by
  rw [byte_eq, Option.map_eq_some_iff]
  constructor
  · rintro ⟨d, hd, hx⟩
    obtain ⟨s, hs, h0, rfl⟩ := slot_of_dirBlock hd
    exact ⟨s, hs, h0, hx⟩
  · rintro ⟨s, hs, h0, hx⟩
    exact ⟨_, dirBlock_of_slot hs h0, hx⟩

/-- Growth keeps the bytes there are. -/
theorem Grows.byte (hg : Grows ino v v') (hino' : ino' < maxInodes) (h : v.byte ino' pos = some x) :
    v'.byte ino' pos = some x := by
  rw [byte_eq] at h ⊢
  obtain ⟨d, hd, rfl⟩ := Option.map_eq_some_iff.mp h
  rw [hg.dirBlock hino' hd]
  rfl

/-- Growth of one file is not seen in another. -/
theorem Grows.byte_other (hg : Grows ino v v') (hino' : ino' < maxInodes) (hne : ino' ≠ ino) (pos : Nat) :
    v'.byte ino' pos = v.byte ino' pos :=
  byte_congr (dirBlock_congr fun s hs => ⟨hg.others ino' hino' hne s, hg.data ino' hino' s (leafSlot_leaf hs)⟩)

/-- A data block is written: the bytes of its index change and no others. -/
theorem Owned.byte_write (h : v.Owned) (hino : ino < maxInodes) (hs : leafSlot idx = some s) (h0 : v.ref ino s ≠ 0)
    (hino' : ino' < maxInodes) (pos : Nat) : (v.write (v.ref ino s) d).byte ino' pos =
      if ino' = ino ∧ pos / blockSize = idx then some (d (pos % blockSize)) else v.byte ino' pos := by
  rw [byte_eq, h.dirBlock_write hino hs h0 hino', byte_eq]
  split_ifs <;> rfl

end Vol

/-! ## Reading -/

section Read
variable {v : Vol} {ino off : Nat}

theorem Vol.Owned.data_target (h : v.Owned) (hino : ino < maxInodes) (p : Slot) (_ : p.Interior)
    (h0 : v.refIn (v.inodeAt ino) p ≠ 0) : Ofs.Data (v.refIn (v.inodeAt ino) p) := (h.ref_target hino h0).2.2

theorem blockIdx_eq {pos : Nat} (h : pos < 2 ^ 44) : blockIdx pos = pos / blockSize := by
  unfold blockIdx blockSize
  omega

theorem addUsize_eq {a b : Nat} (h : a + b < 2 ^ 64) : addUsize a b = a + b := Nat.mod_eq_of_lt h

/-- The rounds of `file_read`. -/
theorem ensures_fileReadLoop (h : v.Owned) (hino : ino < maxInodes) {toRead : Nat} (hend : off + toRead < 2 ^ 44)
    (hthere : ∀ i < toRead, v.byte ino (off + i) ≠ none) (fuel : Nat) : ∀ {done : Nat} {out : Nat → BitVec 8},
    toRead ≤ done + fuel → done ≤ toRead → (∀ i < done, v.byte ino (off + i) = some (out i)) →
    (fileReadLoop ino off toRead fuel done (v.inodeAt ino) out).ensures volume (fun r v' => v' = v ∧
      ∃ out', r = .ok out' ∧ ∀ i < toRead, v.byte ino (off + i) = some (out' i)) v := by
  induction fuel with
  | zero =>
    intro done out hfuel hle hout
    exact ⟨rfl, out, rfl, fun i hi => hout i (by omega)⟩
  | succ fuel ih =>
    intro done out hfuel hle hout
    rw [fileReadLoop]
    by_cases hd : done < toRead
    · rw [if_pos hd, addUsize_eq (by omega)]
      dsimp only
      rw [blockIdx_eq (by omega), ensures_bind]
      refine ensures_mono (ensures_getFileBlock_false (h.data_target hino) _) fun res v' hres => ?_
      obtain ⟨rfl, rfl⟩ := hres
      -- the block of the next byte is there
      obtain ⟨x, hx⟩ := Option.ne_none_iff_exists'.mp (hthere done hd)
      obtain ⟨s, hs, h0, _⟩ := byte_eq_some.mp hx
      have hblk : v'.fileBlock (v'.inodeAt ino) ((off + done) / blockSize) = some (v'.ref ino s) :=
        fileBlock_eq_some.mpr ⟨s, hs, h0, rfl⟩
      rw [hblk]
      refine ensures_readBlk (h.ref_target hino h0).2.2 ?_
      generalize hc : min (toRead - done) (blockSize - (off + done) % blockSize) = chunk
      have hmod : (off + done) % blockSize < blockSize := Nat.mod_lt _ (by decide)
      have hchunk : 0 < chunk ∧ chunk ≤ toRead - done ∧ (off + done) % blockSize + chunk ≤ blockSize := by omega
      refine ih (by omega) (by omega) fun i hi => ?_
      by_cases hnew : done ≤ i
      · -- a byte of this block
        obtain ⟨j, rfl⟩ : ∃ j, i = done + j := ⟨i - done, by omega⟩
        have hdiv : (off + (done + j)) / blockSize = (off + done) / blockSize := by
          unfold blockSize at hmod hchunk ⊢
          omega
        have hmod' : (off + (done + j)) % blockSize = (off + done) % blockSize + j := by
          unfold blockSize at hmod hchunk ⊢
          omega
        rw [copyInto_at (by omega)]
        refine byte_eq_some.mpr ⟨s, by rw [hdiv]; exact hs, h0, ?_⟩
        rw [hmod']
      · rw [copyInto_out (by omega)]
        exact hout i (by omega)
    · rw [if_neg hd]
      exact ⟨rfl, out, rfl, fun i hi => hout i (by omega)⟩

/-- `file_read` returns the bytes of the file, if they are there. -/
theorem ensures_fileRead (h : v.Owned) (hino : ino < maxInodes) (hfile : (v.inodeAt ino).isFile) (buf : Bytes)
    (hthere : ∀ i < min ((v.inodeAt ino).size.toNat - off) buf.len, v.byte ino (off + i) ≠ none) :
    (fileRead ino off buf).ensures volume (fun r v' => v' = v ∧ ∃ out : Bytes, r = .ok out ∧
      out.len = min ((v.inodeAt ino).size.toNat - off) buf.len ∧
      ∀ i < out.len, v.byte ino (off + i) = some (out.get i)) v := by
  rw [fileRead, ensures_bind]
  refine ensures_readInode (fun _ => ?_) fun h' => absurd hino (by omega)
  dsimp only
  rw [if_neg (not_not.mpr hfile)]
  by_cases hoff : (v.inodeAt ino).size.toNat ≤ off
  · rw [if_pos hoff]
    refine ⟨rfl, _, rfl, ?_, nofun⟩
    show 0 = _
    omega
  · rw [if_neg hoff, ensures_bind]
    refine ensures_mono (ensures_fileReadLoop h hino (by omega) hthere _ (by omega) (by omega)
      nofun) fun r v' hr => ?_
    obtain ⟨rfl, out', rfl, hout⟩ := hr
    exact ⟨rfl, _, rfl, rfl, hout⟩

end Read

/-! ## Writing -/

section Write
variable {v v' v₁ v₂ : Vol} {ino off : Nat} {data : Bytes}

/-- The bytes a round of `file_write` copies. -/
def chunkLen (off : Nat) (data : Bytes) (done : Nat) : Nat :=
  min (data.len - done) (blockSize - addUsize off done % blockSize)

/-- A block after a round of `file_write`. -/
def Filled (off : Nat) (data : Bytes) (done : Nat) (old d : Block) : Prop :=
  ∀ i < blockSize, d i =
    if addUsize off done % blockSize ≤ i ∧ i < addUsize off done % blockSize + chunkLen off data done then
      data.get (done + (i - addUsize off done % blockSize)) else old i

theorem Vol.Owned.write_leaf (h : v.Owned) (hino : ino < maxInodes) {s : Slot} (hs : ¬s.Interior) (h0 : v.ref ino s ≠ 0)
    (d : Block) : (v.write (v.ref ino s) d).Owned ∧ ∀ ino' < maxInodes, (v.write (v.ref ino s) d).inodeAt ino' = v.inodeAt ino' :=
  ⟨h.write (h.start ino hino s h0) (h.not_pointers hino hs h0), fun _ hino' =>
    inodeAt_write (not_table (h.start ino hino s h0) hino')⟩

/-- What the rounds of `file_write` leave. -/
def LoopEnds (ino len : Nat) (I : Nat → Vol → Prop) : Except FsError RawInode → Vol → Prop
  | .ok n, v' => n = v'.inodeAt ino ∧ v'.Owned ∧ I len v'
  | .error _, v' => ∃ done v₁, I done v₁ ∧ Vol.Grows ino v₁ v'

/-- The rounds of `file_write`, for a property of the number of bytes done and the volume that a round keeps. -/
theorem ensures_fileWriteLoop (hino : ino < maxInodes) (I : Nat → Vol → Prop)
    (hI : ∀ {done : Nat} {v v' : Vol} {s : Slot} {d : Block}, done < data.len → I done v → v.Owned → Vol.Grows ino v v' →
      leafSlot (blockIdx (addUsize off done)) = some s → v'.ref ino s ≠ 0 →
      Filled off data done (v'.blk (v'.ref ino s)) d → I (done + chunkLen off data done) (v'.write (v'.ref ino s) d))
    (fuel : Nat) : ∀ {done : Nat} {v : Vol}, data.len ≤ done + fuel → done ≤ data.len → I done v → v.Owned →
    (fileWriteLoop ino off data fuel done (v.inodeAt ino)).ensures volume (LoopEnds ino data.len I) v := by
  induction fuel with
  | zero =>
    intro done v hfuel hle hdone h
    have hd : done = data.len := by omega
    subst hd
    exact ⟨rfl, h, hdone⟩
  | succ fuel ih =>
    intro done v hfuel hle hdone h
    rw [fileWriteLoop]
    by_cases hd : done < data.len
    · rw [if_pos hd]
      rw [ensures_bind]
      refine ensures_mono (ensures_getFileBlock h hino _ true) fun res v' hres => ?_
      obtain ⟨r, n⟩ := res
      obtain ⟨hg, rfl, hb⟩ := hres
      cases r with
      | none => exact ⟨done, v, hdone, hg⟩
      | some b =>
        obtain ⟨s, hs, h0, rfl⟩ := hb b rfl
        have htarget := hg.owned.ref_target hino h0
        have hmod : addUsize off done % blockSize < blockSize := Nat.mod_lt _ (by decide)
        have hlen : 0 < chunkLen off data done ∧ chunkLen off data done ≤ data.len - done := by
          unfold chunkLen
          omega
        -- the next round, once the block is read or known to be overwritten
        have hround : ∀ buf : Block, Filled off data done (v'.blk (v'.ref ino s)) (copyInto buf (addUsize off done % blockSize)
            (chunkLen off data done) fun i => data.get (done + i)) →
            (writeBlk (v'.ref ino s) (copyInto buf (addUsize off done % blockSize) (chunkLen off data done)
              fun i => data.get (done + i)) >>= fun ok => if ok then
              fileWriteLoop ino off data fuel (done + chunkLen off data done) (v'.inodeAt ino)
              else pure (.error .blockWrite)).ensures volume (LoopEnds ino data.len I) v' := by
          intro buf hfill
          rw [ensures_bind]
          refine ensures_writeBlk htarget ?_
          have hleaf := hg.owned.write_leaf hino (leafSlot_leaf hs) h0 (copyInto buf (addUsize off done % blockSize)
            (chunkLen off data done) fun i => data.get (done + i))
          rw [← hleaf.2 ino hino]
          exact ih (by omega) (by omega) (hI hd hdone h hg hs h0 hfill) hleaf.1
        dsimp only
        by_cases hpart : addUsize off done % blockSize ≠ 0 ∨
            min (data.len - done) (blockSize - addUsize off done % blockSize) < blockSize
        · rw [if_pos hpart]
          refine ensures_readBlk htarget.2.2 ?_
          refine hround _ fun i hi => ?_
          rfl
        · rw [if_neg hpart, ensures_bind]
          -- a whole block: what was there does not matter
          refine hround _ fun i hi => ?_
          have hwhole : addUsize off done % blockSize = 0 ∧ chunkLen off data done = blockSize := by
            unfold chunkLen
            omega
          rw [copyInto, if_pos (by omega), if_pos (by omega)]
    · rw [if_neg hd]
      have hd : done = data.len := by omega
      subst hd
      exact ⟨rfl, h, hdone⟩

/-- The volume once `file_write` has set the size of the file. -/
def Vol.resized (v : Vol) (ino fin : Nat) : Vol :=
  if (v.inodeAt ino).size.toNat < fin then v.putInode ino { v.inodeAt ino with size := BitVec.ofNat 32 fin } else v

theorem Vol.Owned.resized (h : v.Owned) (hino : ino < maxInodes) (fin : Nat) : (v.resized ino fin).Owned := by
  unfold Vol.resized
  split_ifs
  · refine h.putInode hino fun r => .inr ?_
    cases r <;> rfl
  · exact h

/-- What `file_write` leaves, for a property that its rounds keep. -/
def WriteEnds (ino off : Nat) (data : Bytes) (I : Nat → Vol → Prop) (v : Vol) : Except FsError Nat → Vol → Prop
  | .ok k, v' => k = data.len ∧ ino < maxInodes ∧ (v.inodeAt ino).isFile ∧
    ∃ v₁ : Vol, v₁.Owned ∧ I data.len v₁ ∧ v' = v₁.resized ino (addUsize off data.len)
  | .error _, v' => v' = v ∨ ∃ done v₁, I done v₁ ∧ Vol.Grows ino v₁ v'

theorem ensures_fileWrite_of (h : v.Owned) (I : Nat → Vol → Prop) (h0 : I 0 v)
    (hI : ino < maxInodes → ∀ {done : Nat} {v v' : Vol} {s : Slot} {d : Block}, done < data.len → I done v → v.Owned →
      Vol.Grows ino v v' → leafSlot (blockIdx (addUsize off done)) = some s → v'.ref ino s ≠ 0 →
      Filled off data done (v'.blk (v'.ref ino s)) d →
      I (done + chunkLen off data done) (v'.write (v'.ref ino s) d)) :
    (fileWrite ino off data).ensures volume (WriteEnds ino off data I v) v := by
  rw [fileWrite, ensures_bind]
  refine ensures_readInode (fun hino => ?_) fun _ => .inl rfl
  dsimp only
  by_cases hfile : (v.inodeAt ino).isFile
  · rw [if_neg (not_not.mpr hfile), ensures_bind]
    refine ensures_mono (ensures_fileWriteLoop hino I (hI hino) data.len (by omega) (Nat.zero_le _) h0 h)
      fun r v₁ hr => ?_
    cases r with
    | error e => exact .inr hr
    | ok n =>
      obtain ⟨rfl, h₁, hI₁⟩ := hr
      -- either way the size is set and the rest is a commit
      have hend : ∀ v', v' = v₁.resized ino (addUsize off data.len) → (commitTxn >>= fun _ =>
          (pure (.ok data.len) : FsProg (Except FsError Nat))).ensures volume (WriteEnds ino off data I v) v' := by
        rintro v' rfl
        exact ensures_commitTxn fun _ => ⟨rfl, hino, hfile, v₁, h₁, hI₁, rfl⟩
      rw [ensures_bind]
      refine ensures_onlyIf (fun hlt => ?_) fun hge => ?_
      · rw [ensures_bind]
        refine ensures_writeInode hino (hend _ ?_)
        rw [resized, if_pos hlt]
      · refine hend _ ?_
        rw [resized, if_neg hge]
  · rw [if_pos hfile]
    exact .inl rfl

/-! ## What a write changes -/

/-- The volume after `done` bytes of a write, against the volume before it. -/
structure Wrote (ino off : Nat) (data : Bytes) (v : Vol) (done : Nat) (v' : Vol) : Prop where
  bound : off + done < 2 ^ 44
  written : ∀ i < done, v'.byte ino (off + i) = some (data.get i)
  kept : ∀ pos x, pos < off ∨ off + done ≤ pos → v.byte ino pos = some x → v'.byte ino pos = some x
  others : ∀ ino' < maxInodes, ino' ≠ ino → ∀ pos, v'.byte ino' pos = v.byte ino' pos
  inodes : ∀ ino' < maxInodes, ino' ≠ ino → v'.inodeAt ino' = v.inodeAt ino'
  inode : (v.inodeAt ino).SameMeta (v'.inodeAt ino)

theorem Wrote.start (hoff : off < 2 ^ 44) : Wrote ino off data v 0 v :=
  ⟨hoff, nofun, fun _ _ _ h => h, fun _ _ _ _ => rfl, fun _ _ _ => rfl, rfl, rfl, rfl⟩

/-- A round stays within one block, which is the one of the next byte. -/
theorem Wrote.round {done : Nat} {s : Slot} {d : Block} (hw : Wrote ino off data v done v₁) (hino : ino < maxInodes)
    (hg : Vol.Grows ino v₁ v₂) (hs : leafSlot (blockIdx (addUsize off done)) = some s)
    (h0 : v₂.ref ino s ≠ 0) (hfill : Filled off data done (v₂.blk (v₂.ref ino s)) d) :
    Wrote ino off data v (done + chunkLen off data done) (v₂.write (v₂.ref ino s) d) := by
  have hb := hw.bound
  have hpos : addUsize off done = off + done := addUsize_eq (by omega)
  have hidx : blockIdx (addUsize off done) = (off + done) / blockSize := by rw [hpos, blockIdx_eq hb]
  unfold Filled at hfill
  unfold chunkLen at hfill ⊢
  rw [hpos] at hfill ⊢
  rw [hidx] at hs
  have hlt := leafSlot_lt hs
  generalize hc : min (data.len - done) (blockSize - (off + done) % blockSize) = chunk at hfill ⊢
  have hmod : (off + done) % blockSize < blockSize := Nat.mod_lt _ (by decide)
  have hchunk : (off + done) % blockSize + chunk ≤ blockSize := by omega
  have hbyte := fun {ino'} (hi : ino' < maxInodes) pos => hg.owned.byte_write (d := d) hino hs h0 hi pos
  have hleaf := hg.owned.write_leaf hino (leafSlot_leaf hs) h0 d
  -- the byte at a position in the block of this round
  have hold : ∀ pos, pos / blockSize = (off + done) / blockSize →
      v₂.byte ino pos = some (v₂.blk (v₂.ref ino s) (pos % blockSize)) := fun pos hp => by
    exact byte_eq_some.mpr ⟨s, by rw [hp]; exact hs, h0, rfl⟩
  have hsame : ∀ pos x, pos < off + done ∨ off + (done + chunk) ≤ pos → v₂.byte ino pos = some x →
      (v₂.write (v₂.ref ino s) d).byte ino pos = some x := fun pos x hp hx => by
    rw [hbyte hino pos]
    split_ifs with he
    · have hin := Nat.mod_lt pos (show 0 < blockSize by decide)
      rw [hold pos he.2] at hx
      rw [hfill _ hin, if_neg, hx]
      have hp1 := Nat.div_add_mod pos blockSize
      have hp2 := Nat.div_add_mod (off + done) blockSize
      rw [he.2] at hp1
      omega
    · exact hx
  refine ⟨?_, fun i hi => ?_, fun pos x hp hx => ?_, fun ino' hi hne pos => ?_, fun ino' hi hne => ?_, ?_⟩
  · unfold maxFileBlocks nptrs at hlt
    unfold blockSize at hlt hmod hchunk
    omega
  · by_cases hi' : i < done
    · exact hsame _ _ (.inl (by omega)) (hg.byte hino (hw.written i hi'))
    · have hdiv : (off + i) / blockSize = (off + done) / blockSize := by
        unfold blockSize at hmod hchunk ⊢
        omega
      have hmod' : (off + i) % blockSize = (off + done) % blockSize + (i - done) := by
        unfold blockSize at hmod hchunk ⊢
        omega
      rw [hbyte hino, if_pos ⟨rfl, hdiv⟩, hfill _ (Nat.mod_lt _ (by decide)), if_pos (by omega)]
      congr 2
      omega
  · exact hsame pos x (hp.imp (by omega) id) (hg.byte hino (hw.kept pos x (hp.imp id (by omega)) hx))
  · rw [hbyte hi pos, if_neg fun he => hne he.1, hg.byte_other hi hne, hw.others ino' hi hne]
  · rw [hleaf.2 ino' hi, hg.inodes ino' hi hne, hw.inodes ino' hi hne]
  · rw [hleaf.2 ino hino]
    obtain ⟨ht, hs, hn⟩ := hw.inode
    obtain ⟨ht', hs', hn'⟩ := hg.inode
    exact ⟨ht'.trans ht, hs'.trans hs, hn'.trans hn⟩

/-- An inode that keeps its pointers keeps its bytes. -/
theorem Vol.Owned.byte_putInode (h : v.Owned) (hino : ino < maxInodes) {n : RawInode}
    (hr : ∀ r, n.root r = (v.inodeAt ino).root r) {ino' : Nat} (hino' : ino' < maxInodes) (pos : Nat) :
    (v.putInode ino n).byte ino' pos = v.byte ino' pos := by
  have href : ∀ s, (v.putInode ino n).ref ino' s = v.ref ino' s := fun s => by
    rw [h.ref_putInode hino (fun r => .inr (hr r)) hino']
    split_ifs with hi
    · subst hi
      exact refIn_same hr s
    · rfl
  exact byte_congr (dirBlock_congr fun s _ => ⟨href s, fun h0 =>
    putInode_of_ne (not_table (h.start ino' hino' s h0) hino).symm⟩)

/-- The volume after a successful `file_write`. -/
structure Written (ino off : Nat) (data : Bytes) (v v' : Vol) : Prop where
  ino_lt : ino < maxInodes
  file : (v.inodeAt ino).isFile
  bound : off + data.len < 2 ^ 44
  written : ∀ i < data.len, v'.byte ino (off + i) = some (data.get i)
  kept : ∀ pos x, pos < off ∨ off + data.len ≤ pos → v.byte ino pos = some x → v'.byte ino pos = some x
  others : ∀ ino' < maxInodes, ino' ≠ ino → ∀ pos, v'.byte ino' pos = v.byte ino' pos
  inodes : ∀ ino' < maxInodes, ino' ≠ ino → v'.inodeAt ino' = v.inodeAt ino'
  itype : (v'.inodeAt ino).itype = (v.inodeAt ino).itype
  size : (v'.inodeAt ino).size.toNat =
    if (v.inodeAt ino).size.toNat < off + data.len then (off + data.len) % 2 ^ 32 else (v.inodeAt ino).size.toNat

theorem Wrote.resized (hw : Wrote ino off data v data.len v₁) (h₁ : v₁.Owned) (hino : ino < maxInodes)
    (hfile : (v.inodeAt ino).isFile) : Written ino off data v (v₁.resized ino (addUsize off data.len)) := by
  have hb := hw.bound
  obtain ⟨ht, hs, _⟩ := hw.inode
  rw [addUsize_eq (by omega)]
  unfold Vol.resized
  rw [hs]
  split_ifs with hlt
  · have hroots : ∀ r, ({ v₁.inodeAt ino with size := BitVec.ofNat 32 (off + data.len) } : RawInode).root r =
        (v₁.inodeAt ino).root r := fun r => by cases r <;> rfl
    have hbyte := fun {ino'} (hi : ino' < maxInodes) pos => h₁.byte_putInode hino hroots hi pos
    refine ⟨hino, hfile, hb, fun i hi => ?_, fun pos x hp hx => ?_, fun ino' hi hne pos => ?_, fun ino' hi hne => ?_, ?_, ?_⟩
    · rw [hbyte hino]
      exact hw.written i hi
    · rw [hbyte hino]
      exact hw.kept pos x hp hx
    · rw [hbyte hi]
      exact hw.others ino' hi hne pos
    · rw [inodeAt_putInode_of_ne hne]
      exact hw.inodes ino' hi hne
    · rw [inodeAt_putInode_self]
      exact ht
    · rw [inodeAt_putInode_self, if_pos hlt]
      exact BitVec.toNat_ofNat ..
  · refine ⟨hino, hfile, hb, hw.written, hw.kept, hw.others, hw.inodes, ht, ?_⟩
    rw [if_neg hlt, hs]

/-- `file_write` at an offset that a block index can express. -/
theorem ensures_fileWrite (h : v.Owned) (hoff : off < 2 ^ 44) : (fileWrite ino off data).ensures volume (fun r v' =>
    v'.Owned ∧ ∀ k, r = .ok k → k = data.len ∧ Written ino off data v v') v := by
  refine ensures_mono (ensures_fileWrite_of h (Wrote ino off data v) (.start hoff)
    fun hino _ _ _ _ _ _ hw _ hg hs h0 hfill => hw.round hino hg hs h0 hfill) fun r v' hr => ?_
  cases r with
  | error e =>
    refine ⟨?_, nofun⟩
    rcases hr with rfl | ⟨_, _, _, hg⟩
    · exact h
    · exact hg.owned
  | ok k =>
    obtain ⟨rfl, hino, hfile, v₁, h₁, hw, rfl⟩ := hr
    exact ⟨h₁.resized hino _, fun k hk => ⟨(Except.ok.inj hk).symm, hw.resized h₁ hino hfile⟩⟩

end Write
end OpenV.Vfs
