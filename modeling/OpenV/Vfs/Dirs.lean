import OpenV.Vfs.Files
import OpenV.Vfs.Mkfs

/- What the operations on files and directories do to a volume: which inodes they touch,
   where `dir_add_entry` puts an entry (`Added`) and what `dir_unlink` removes
   (`Unlinked`). -/
namespace OpenV.Vfs

open Prog Vol
variable {v v' v₁ : Vol} {ino dir : Nat}

/-! ## Files -/

theorem Vol.Owned.touches_resized (h : v.Owned) (hino : ino < maxInodes) (fin : Nat) :
    Vol.Touches (· = ino) v (v.resized ino fin) := by
  unfold Vol.resized
  split_ifs
  · exact h.touches_putInode hino fun r => .inr (by cases r <;> rfl)
  · exact .refl h

theorem Vol.Owned.ref_resized (h : v.Owned) (hino : ino < maxInodes) (fin : Nat) (s : Slot) :
    (v.resized ino fin).ref ino s = v.ref ino s := by
  unfold Vol.resized
  split_ifs
  · have hr : ∀ r, ({ v.inodeAt ino with size := BitVec.ofNat 32 fin } : RawInode).root r = (v.inodeAt ino).root r :=
      fun r => by cases r <;> rfl
    rw [h.ref_putInode hino (fun r => .inr (hr r)) hino, if_pos rfl]
    exact refIn_same hr s
  · rfl

theorem touches_fileWrite (h : v.Owned) (ino off : Nat) (data : Bytes) :
    (fileWrite ino off data).ensures volume (fun _ => Vol.Touches (· = ino) v) v := by
  refine ensures_mono (ensures_fileWrite_of h (fun _ => Vol.Touches (· = ino) v) (.refl h)
    fun hino _ _ _ _ _ _ ht _ hg hs h0 _ => ?_) fun r v' hr => ?_
  · exact (ht.trans hg.touches).trans (hg.owned.touches_leaf hino (leafSlot_leaf hs) h0)
  · cases r with
    | ok k =>
      obtain ⟨_, hino, _, v₁, h₁, ht, rfl⟩ := hr
      exact ht.trans (h₁.touches_resized hino _)
    | error e =>
      rcases hr with rfl | ⟨_, _, ht, hg⟩
      · exact .refl h
      · exact ht.trans hg.touches

theorem ensures_fileTruncate_out (hino : maxInodes ≤ ino) : (fileTruncate ino).ensures volume (fun _ v' => v' = v) v := by
  exact ensures_readInode (fun h => absurd h (by omega)) fun _ => rfl

theorem ensures_freeInode (ino : Nat) : (freeInode ino).ensures volume
    (fun _ v' => v' = v.write inodeBitmapBlk (putBit (v.blk inodeBitmapBlk) ino false)) v := by
  exact ensures_invalidate (ensures_bitmapSet (by decide) ino false)

/-! ## New directories -/

/-- The first block of a new directory. -/
def dotBlock (ino parent : Nat) : Block :=
  direntWrite (direntWrite zeroBlock 0 ino (nameBytes ".") itypeDir) direntrySize parent (nameBytes "..") itypeDir

section
local instance neZeroTwelve : NeZero 12 := ⟨by decide⟩

/-- The volume with a new directory whose first block is `nb`. -/
def Vol.initialised (v : Vol) (ino parent nb : Nat) : Vol :=
  ((v.mark nb true).write nb (dotBlock ino parent)).putInode ino { v.inodeAt ino with
    direct := Function.update (v.inodeAt ino).direct 0 (BitVec.ofNat 32 nb), size := BitVec.ofNat 32 (2 * direntrySize)
    nlink := 2#32, usedBlocks := 1#32 }

end

theorem ensures_initDir (ino parent : Nat) : (initDir ino parent).ensures volume (fun ok v' => (ok = false ∧ v' = v) ∨
    ok = true ∧ ino < maxInodes ∧ ∃ nb, v.Free nb ∧ v' = v.initialised ino parent nb) v := by
  rw [initDir, ensures_bind]
  refine ensures_readInode (fun hino => ?_) fun _ => .inl ⟨rfl, rfl⟩
  dsimp only
  by_cases hdir : (v.inodeAt ino).itype = itypeDir
  · rw [if_neg (not_not.mpr hdir), ensures_bind]
    refine ensures_mono ensures_allocBlock fun r v' hr => ?_
    cases r with
    | none => exact .inl ⟨rfl, hr⟩
    | some nb =>
      obtain ⟨hf, rfl⟩ := hr
      simp only [ensures_bind]
      refine ensures_writeBlk hf.target (ensures_writeInode hino (ensures_commitTxn fun _ => ?_))
      exact .inr ⟨rfl, hino, nb, hf, rfl⟩
  · rw [if_pos hdir]
    exact .inl ⟨rfl, rfl⟩

theorem Vol.Owned.touches_initialised {parent nb : Nat} (h : v.Owned) (hino : ino < maxInodes) (hf : v.Free nb) :
    Vol.Touches (· = ino) v (v.initialised ino parent nb) := by
  obtain ⟨hkept, hinodes, href, hbits, hmap⟩ := h.put_root (r := .direct 0) (w := v.initialised ino parent nb) hf hino
      (by simp [RawInode.root]) (fun r hr => by
        cases r with
        | direct i => exact Function.update_of_ne (fun he => hr (by rw [he])) ..
        | indirect | doubleIndirect => rfl) (fun hi => hi.elim) rfl
  refine ⟨h.link hf.clear hf.start hf.limit href hbits, rfl, fun d hd hne => ?_⟩
  refine ⟨congrArg _ (hinodes d hd hne), congrArg _ (hinodes d hd hne), fun s => ?_, fun s _ => hkept d hd s, ?_⟩
  · exact (href d hd s).trans (if_neg fun he => hne he.1)
  · exact congrArg (bitSet · d) hmap

theorem touches_initDir (h : v.Owned) (ino parent : Nat) :
    (initDir ino parent).ensures volume (fun _ => Vol.Touches (· = ino) v) v := by
  refine ensures_mono (ensures_initDir ino parent) fun _ v' hr => ?_
  rcases hr with ⟨_, rfl⟩ | ⟨_, hino, nb, hf, rfl⟩
  · exact .refl h
  · exact h.touches_initialised hino hf

/-! ## Adding entries -/

/-- The directory after `bumpParent`. -/
def Vol.bumped (v : Vol) (dir : Nat) (etype : BitVec 8) (bump : BitVec 32 → BitVec 32) : Vol :=
  if etype = itypeDir then v.putInode dir { v.inodeAt dir with nlink := bump (v.inodeAt dir).nlink } else v

theorem Vol.Owned.touches_bumped (h : v.Owned) (hdir : dir < maxInodes) (etype : BitVec 8) (bump : BitVec 32 → BitVec 32) :
    Vol.Touches (fun _ => False) v (v.bumped dir etype bump) := by
  unfold bumped
  split_ifs
  · exact h.touches_links hdir (fun r => by cases r <;> rfl) rfl rfl
  · exact .refl h

theorem ensures_bumpParent (hdir : dir < maxInodes) (etype : BitVec 8) (bump : BitVec 32 → BitVec 32) :
    (bumpParent dir etype bump).ensures volume (fun _ v' => v' = v.bumped dir etype bump) v := by
  refine ensures_onlyIf (fun ht => ?_) fun ht => ?_
  · rw [ensures_bind]
    refine ensures_readInode (fun _ => ?_) fun h => absurd hdir (by omega)
    rw [ensures_bind]
    refine ensures_writeInode hdir ?_
    show _ = bumped v dir etype bump
    rw [bumped, if_pos ht]
  · rw [bumped, if_neg ht]

theorem ensures_coverEntry (hdir : dir < maxInodes) (size : Nat) (etype : BitVec 8) :
    (coverEntry dir (v.inodeAt dir) size etype).ensures volume
      (fun _ v' => v' = (v.resized dir size).bumped dir etype satInc) v := by
  have hend : ∀ v₁, v₁ = v.resized dir size → (bumpParent dir etype satInc >>= fun _ => commitTxn).ensures volume
      (fun _ v' => v' = (v.resized dir size).bumped dir etype satInc) v₁ := by
    rintro v₁ rfl
    rw [ensures_bind]
    refine ensures_mono (ensures_bumpParent hdir etype satInc) fun _ v₂ h₂ => ?_
    exact ensures_commitTxn fun _ => h₂
  rw [coverEntry, ensures_bind]
  refine ensures_onlyIf (fun hlt => ?_) fun hge => ?_
  · rw [ensures_bind]
    refine ensures_writeInode hdir (hend _ ?_)
    rw [resized, if_pos hlt]
  · refine hend _ ?_
    rw [resized, if_neg hge]

/-- Where an entry goes: slot `slot` of block `block` of a directory, whose block map has grown to that of `v₁`; `old`
is what the block is taken to hold. It is either a free slot that the directory covers, or the first one of the
block behind its end. -/
structure Place (dir : Nat) (v v₁ : Vol) (block slot : Nat) (s : Slot) (old : Block) : Prop where
  dir_lt : dir < maxInodes
  isDir : (v.inodeAt dir).itype = itypeDir
  grows : Vol.Grows dir v v₁
  leaf : leafSlot block = some s
  there : v₁.ref dir s ≠ 0
  slot_lt : slot < direntriesPerBlock
  free : (v₁ = v ∧ old = v.blk (v.ref dir s) ∧ block * direntriesPerBlock + slot < (v.inodeAt dir).totalEntries ∧
      (direntRead old (slot * direntrySize)).nameLen = 0) ∨
    (block = divCeil (v.inodeAt dir).size.toNat blockSize ∧ slot = 0 ∧ old = zeroBlock)

/-- The volume with an entry in its place. -/
def Vol.entered (v₁ : Vol) (dir : Nat) (name : String) (child : Nat) (etype : BitVec 8) (block slot : Nat) (s : Slot)
    (old : Block) : Vol :=
  ((v₁.write (v₁.ref dir s) (direntWrite old (slot * direntrySize) child (nameBytes name) etype)).resized dir
    ((block * direntriesPerBlock + slot + 1) * direntrySize)).bumped dir etype satInc

/-- `dir_add_entry` has added an entry. -/
def Added (dir : Nat) (name : String) (child : Nat) (etype : BitVec 8) (v v' : Vol) : Prop :=
  (nameBytes name).length ≤ 55 ∧ ∃ v₁ block slot s old, Place dir v v₁ block slot s old ∧
    v' = v₁.entered dir name child etype block slot s old

variable {name : String} {child block slot : Nat} {etype : BitVec 8} {s : Slot}

theorem Added.touches (ha : Added dir name child etype v v') : Vol.Touches (· = dir) v v' := by
  obtain ⟨_, v₁, block, slot, s, old, hp, rfl⟩ := ha
  have hleaf := hp.grows.owned.touches_leaf (x := direntWrite old (slot * direntrySize) child (nameBytes name) etype)
    hp.dir_lt (leafSlot_leaf hp.leaf) hp.there
  have hsize := hleaf.owned.touches_resized hp.dir_lt ((block * direntriesPerBlock + slot + 1) * direntrySize)
  have hbump := hsize.owned.touches_bumped hp.dir_lt etype satInc
  exact ((hp.grows.touches.trans hleaf).trans hsize).trans (hbump.mono fun _ h => h.elim)

/-- The blocks that a directory had are still its own. -/
theorem Added.kept (ha : Added dir name child etype v v') (h0 : v.ref dir s ≠ 0) : v'.ref dir s = v.ref dir s := by
  obtain ⟨_, v₁, block, slot, t, old, hp, rfl⟩ := ha
  have hleaf := hp.grows.owned.write_leaf hp.dir_lt (leafSlot_leaf hp.leaf) hp.there
    (direntWrite old (slot * direntrySize) child (nameBytes name) etype)
  have hsize := hleaf.1.touches_resized hp.dir_lt ((block * direntriesPerBlock + slot + 1) * direntrySize)
  rw [entered, ((hsize.owned.touches_bumped hp.dir_lt etype satInc).same dir hp.dir_lt id).ref,
    hleaf.1.ref_resized hp.dir_lt, ref_write (hp.grows.owned.start dir hp.dir_lt t hp.there)
      (hp.grows.owned.not_pointers hp.dir_lt (leafSlot_leaf hp.leaf) hp.there) hp.dir_lt,
    hp.grows.kept dir hp.dir_lt s h0]

/-- The end of `dir_add_entry`. -/
theorem ensures_enter {old : Block} (hp : Place dir v v₁ block slot s old) (name : String) (child : Nat)
    (etype : BitVec 8) :
    (writeBlk (v₁.ref dir s) (direntWrite old (slot * direntrySize) child (nameBytes name) etype) >>= fun _ =>
      coverEntry dir (v₁.inodeAt dir) ((block * direntriesPerBlock + slot + 1) * direntrySize) etype).ensures volume
      (fun _ v' => v' = v₁.entered dir name child etype block slot s old) v₁ := by
  have howned := hp.grows.owned
  refine ensures_writeBlk (howned.ref_target hp.dir_lt hp.there) ?_
  rw [← (howned.write_leaf hp.dir_lt (leafSlot_leaf hp.leaf) hp.there _).2 dir hp.dir_lt]
  exact ensures_coverEntry hp.dir_lt _ etype

/-- A copy of the inode made before lacks at most blocks that have been added since. -/
theorem Vol.root_of_kept {n : RawInode} (hkept : ∀ s, v.ref dir s ≠ 0 → v'.ref dir s = v.ref dir s)
    (hroot : ∀ r, n.root r = (v.inodeAt dir).root r) (r : Root) :
    n.root r = 0#32 ∨ n.root r = (v'.inodeAt dir).root r := by
  by_cases h0 : v.ref dir (.root r) = 0
  · exact .inl ((hroot r).trans (BitVec.eq_of_toNat_eq h0))
  · exact .inr ((hroot r).trans (BitVec.eq_of_toNat_eq (hkept (.root r) h0).symm))

/-- What an attempt to add an entry leaves: the entry is there, or the attempt has failed and the directory, if it is
one, has got blocks at most. -/
def Tried (dir : Nat) (name : String) (child : Nat) (etype : BitVec 8) (ok : Bool) (v v' : Vol) : Prop :=
  Added dir name child etype v v' ∨
    (ok = false ∧ Vol.Grows dir v v' ∧ ((dir < maxInodes ∧ (v.inodeAt dir).itype = itypeDir) ∨ v' = v))

section
variable {name : String} {child : Nat} {etype : BitVec 8} {ok : Bool} (ht : Tried dir name child etype ok v v')
include ht

theorem Tried.touches : Vol.Touches (· = dir) v v' := ht.elim (·.touches) (·.2.1.touches)

theorem Tried.kept (hdir : dir < maxInodes) {s : Slot} (h0 : v.ref dir s ≠ 0) : v'.ref dir s = v.ref dir s :=
  ht.elim (·.kept h0) (·.2.1.kept dir hdir s h0)

theorem Tried.notDir (hno : dir < maxInodes → (v.inodeAt dir).itype ≠ itypeDir) : ok = false ∧ v' = v := by
  rcases ht with ⟨_, v₁, block, slot, s, old, hp, _⟩ | ⟨hok, _, ⟨hdir, htype⟩ | hv⟩
  · exact absurd hp.isDir (hno hp.dir_lt)
  · exact absurd htype (hno hdir)
  · exact ⟨hok, hv⟩

end

section
variable (h : v.Owned) (dir : Nat) (name : String) (child : Nat) (etype : BitVec 8)
include h

theorem ensures_dirAddEntry :
    (dirAddEntry dir name child etype).ensures volume (fun ok => Tried dir name child etype ok v) v := by
  have hsame : Tried dir name child etype false v v := .inr ⟨rfl, .refl h dir, .inr rfl⟩
  rw [dirAddEntry, ensures_bind]
  refine ensures_readInode (fun hdir => ?_) fun _ => hsame
  dsimp only
  by_cases htype : (v.inodeAt dir).itype = itypeDir
  swap
  · rw [if_pos htype]
    exact hsame
  rw [if_neg (not_not.mpr htype)]
  by_cases hlen : 55 < (nameBytes name).length
  · rw [if_pos hlen]
    exact hsame
  rw [if_neg hlen, ensures_bind]
  refine ensures_findSome (fun _ => True) (fun block _ => ?_) fun _ => ?_
  · rw [ensures_bind]
    refine ensures_mono (ensures_getFileBlock_false (h.data_target hdir) block) fun res v'' hres => ?_
    obtain ⟨rfl, rfl⟩ := hres
    cases hblk : v''.fileBlock (v''.inodeAt dir) block with
    | none => exact ⟨rfl, trivial⟩
    | some blk =>
      obtain ⟨s, hs, h0, rfl⟩ := fileBlock_eq_some.mp hblk
      refine ensures_readBlk (h.ref_target hdir h0).2.2 ?_
      refine ensures_findSome (fun _ => True) (fun slot hslot => ?_) fun _ => ⟨rfl, trivial⟩
      by_cases hcov : (v''.inodeAt dir).totalEntries ≤ block * direntriesPerBlock + slot
      · rw [if_pos hcov]
        exact ⟨rfl, trivial⟩
      rw [if_neg hcov]
      by_cases hfree : (direntRead (v''.blk (v''.refIn (v''.inodeAt dir) s)) (slot * direntrySize)).nameLen = 0
      swap
      · rw [if_neg hfree]
        exact ⟨rfl, trivial⟩
      rw [if_pos hfree]
      have hp : Place dir v'' v'' block slot s (v''.blk (v''.ref dir s)) :=
        ⟨hdir, htype, .refl h dir, hs, h0, List.mem_range.mp hslot, .inl ⟨rfl, rfl, by omega, hfree⟩⟩
      have henter := ensures_enter hp name child etype
      rw [ensures_bind] at henter ⊢
      refine ensures_mono henter fun _ v₂ h₂ => ?_
      rw [ensures_bind]
      refine ensures_mono h₂ fun ok v₃ h₃ => ?_
      exact .inl ⟨by omega, v'', block, slot, s, _, hp, h₃⟩
  · rw [ensures_bind]
    refine ensures_mono (ensures_getFileBlock h hdir _ true) fun res v₁ hres => ?_
    obtain ⟨r, n⟩ := res
    obtain ⟨hg, rfl, hb⟩ := hres
    cases r with
    | none => exact .inr ⟨rfl, hg, .inl ⟨hdir, htype⟩⟩
    | some blk =>
      obtain ⟨s, hs, h0, rfl⟩ := hb blk rfl
      dsimp only
      rw [if_neg h0]
      have hp : Place dir v v₁ (divCeil (v.inodeAt dir).size.toNat blockSize) 0 s zeroBlock :=
        ⟨hdir, htype, hg, hs, h0, by decide, .inr ⟨rfl, rfl, rfl⟩⟩
      refine ensures_mono (ensures_enter hp name child etype) fun ok v₂ h₂ => ?_
      exact .inl ⟨by omega, v₁, _, _, s, _, hp, h₂⟩

/-- `dir_link_entry` counts the link (`v₀`), tries to add the entry (`v₁`) and, if that fails, writes back the inode as
it was read: this is seen only where the directory is its own child. -/
theorem ensures_dirLinkEntry_steps : (dirLinkEntry dir name child etype).ensures volume (fun ok v' =>
    (ok = false ∧ v' = v) ∨ ∃ v₀ v₁, Vol.Touches (fun _ => False) v v₀ ∧ Tried dir name child etype ok v₀ v₁ ∧
      child < maxInodes ∧ (Vol.Touches (fun _ => False) v₁ v' ∨
        ok = false ∧ child = dir ∧ ∃ n : RawInode, v' = v₁.putInode dir n ∧ (∀ r, n.root r = (v₀.inodeAt dir).root r) ∧
          n.itype = (v₀.inodeAt dir).itype ∧ n.size = (v₀.inodeAt dir).size)) v := by
  rw [dirLinkEntry, ensures_bind]
  refine ensures_readInode (fun hchild => ?_) fun _ => .inl ⟨rfl, rfl⟩
  rw [ensures_bind]
  refine ensures_writeInode hchild ?_
  rw [ensures_bind]
  have hinc := h.touches_links (n := { v.inodeAt child with nlink := satInc (v.inodeAt child).nlink }) hchild
    (fun r => by cases r <;> rfl) rfl rfl
  generalize hn : ({ v.inodeAt child with nlink := satInc (v.inodeAt child).nlink } : RawInode) = n at hinc ⊢
  have hinode : (v.putInode child n).inodeAt child = n := inodeAt_putInode_self
  generalize v.putInode child n = v₀ at hinc hinode ⊢
  subst hn
  refine ensures_mono (ensures_dirAddEntry hinc.owned dir name child etype) fun ok v₁ ht => ?_
  cases ok with
  | true => exact .inr ⟨v₀, v₁, hinc, ht, hchild, .inl (.refl ht.touches.owned)⟩
  | false =>
    rw [if_neg Bool.false_ne_true, ensures_bind]
    refine ensures_writeInode hchild (.inr ⟨v₀, v₁, hinc, ht, hchild, ?_⟩)
    by_cases hself : child = dir
    · subst hself
      refine .inr ⟨rfl, rfl, _, rfl, fun r => ?_, ?_, ?_⟩
      · rw [hinode]
        cases r <;> rfl
      · rw [hinode]
      · rw [hinode]
    · have hsame := ht.touches.same child hchild hself
      refine .inl (ht.touches.owned.touches_links hchild (fun r => ?_) ?_ ?_)
      · have hroot := BitVec.eq_of_toNat_eq (hsame.ref (.root r)).symm
        rw [hinode] at hroot
        cases r <;> exact hroot
      · rw [hsame.itype, hinode]
      · rw [hsame.size, hinode]

theorem touches_dirAddEntry :
    (dirAddEntry dir name child etype).ensures volume (fun _ => Vol.Touches (· = dir) v) v :=
  ensures_mono (ensures_dirAddEntry h dir name child etype) fun _ _ ht => ht.touches

theorem touches_dirLinkEntry :
    (dirLinkEntry dir name child etype).ensures volume (fun _ => Vol.Touches (· = dir) v) v := by
  refine ensures_mono (ensures_dirLinkEntry_steps h dir name child etype) fun ok v' hr => ?_
  rcases hr with ⟨_, rfl⟩ | ⟨v₀, v₁, hinc, ht, hchild, hback⟩
  · exact .refl h
  refine ((hinc.mono fun _ h => h.elim).trans ht.touches).trans ?_
  rcases hback with hback | ⟨_, rfl, n, rfl, hroot, _⟩
  · exact hback.mono fun _ h => h.elim
  · exact ht.touches.owned.touches_putInode hchild (root_of_kept (fun _ => ht.kept hchild) hroot)

end

/-! ## Finding entries -/

/-- A slot of a directory block has the name. -/
def SlotNamed (b : Block) (slot : Nat) (name : List (BitVec 8)) : Prop :=
  (direntRead b (slot * direntrySize)).nameLen ≠ 0 ∧ (direntRead b (slot * direntrySize)).nameLen = name.length ∧
    slice b (slot * direntrySize + 8) name.length = name

/-- The directory has an entry with the name. -/
structure EntryAt (v : Vol) (dir : Nat) (name : String) (block slot : Nat) (b : Block) : Prop where
  block_eq : v.dirBlock dir block = some b
  slot_lt : slot < direntriesPerBlock
  covered : block * direntriesPerBlock + slot < (v.inodeAt dir).totalEntries
  named : SlotNamed b slot (nameBytes name)

/-- The request reads a block. -/
def Request.ReadsBlk : Request → Prop
  | readBlk _ => True
  | _ => False

theorem ensures_direntNameEq (buf : Block) (off len : Nat) (name : List (BitVec 8)) :
    (direntNameEq buf off len name).ensures volume
      (fun r v' => v' = v ∧ r = decide (len = name.length ∧ slice buf (off + 8) name.length = name)) v := by
  rw [direntNameEq]
  by_cases hlen : len = name.length
  · rw [if_neg (not_not.mpr hlen), direntName, ensures_bind]
    by_cases hend : blockSize < off + 8 + len
    · rw [if_pos hend]
      exact ensures_panic _
    · rw [if_neg hend, ensures_pure]
      subst hlen
      exact ⟨rfl, by simp⟩
  · rw [if_pos hlen]
    exact ⟨rfl, by simp [hlen]⟩

section Scans
variable {K : Prog.Contract Request Request.Answer Vol}

/-- The slots of a block are gone through until one has the name. -/
theorem ensures_scanBlock {β : Type} {buf : Block} {total first : Nat} {name : List (BitVec 8)}
    {found : Nat → Dirent → FsProg (Option β)} {P : Option β → Vol → Prop} (hname : ∀ slot < direntriesPerBlock,
      (direntNameEq buf (slot * direntrySize) (direntRead buf (slot * direntrySize)).nameLen name).ensures K (fun r v' =>
        v' = v ∧ r = decide ((direntRead buf (slot * direntrySize)).nameLen = name.length ∧
          slice buf (slot * direntrySize + 8) name.length = name)) v)
    (hfound : ∀ slot < direntriesPerBlock, first + slot < total → SlotNamed buf slot name →
      (found (slot * direntrySize) (direntRead buf (slot * direntrySize))).ensures K
        (fun r v' => ∃ b, r = some b ∧ P (some b) v') v)
    (hnone : (∀ slot < direntriesPerBlock, first + slot < total → ¬SlotNamed buf slot name) → P none v) :
    (scanBlock buf total first name found).ensures K P v := by
  refine ensures_findSome (fun slot => first + slot < total → ¬SlotNamed buf slot name) (fun slot hslot => ?_)
    fun hall => hnone fun slot hslot => hall slot (List.mem_range.mpr hslot)
  replace hslot := List.mem_range.mp hslot
  by_cases hcov : total ≤ first + slot
  · rw [if_pos hcov]
    exact ⟨rfl, fun h => absurd h (by omega)⟩
  rw [if_neg hcov]
  by_cases hlen : (direntRead buf (slot * direntrySize)).nameLen = 0
  · rw [if_pos hlen]
    exact ⟨rfl, fun _ hn => hn.1 hlen⟩
  rw [if_neg hlen, ensures_bind]
  refine ensures_mono (hname slot hslot) fun r v' hr => ?_
  obtain ⟨rfl, rfl⟩ := hr
  by_cases heq : (direntRead buf (slot * direntrySize)).nameLen = name.length ∧
      slice buf (slot * direntrySize + 8) name.length = name
  · rw [decide_eq_true heq]
    refine ensures_mono (hfound slot hslot (by omega) ⟨hlen, heq⟩) fun r v₁ hr => ?_
    obtain ⟨b, rfl, hb⟩ := hr
    exact hb
  · rw [decide_eq_false heq]
    exact ⟨rfl, fun _ hn => heq hn.2⟩

/-- A loop over the blocks of a directory that is left at the first that is missing, at which it returns `miss`. -/
theorem ensures_findBlock {β : Type} {miss : β} {body : Nat → Nat → Block → FsProg (Option β)} {P : Option β → Vol → Prop}
    {N : Nat} (hK : ∀ {α : Type} {p : FsProg α} {P : α → Vol → Prop} {v : Vol}, p.Within Request.ReadsBlk →
      p.ensures volume P v → p.ensures K P v) (h : v.Owned) (hdir : dir < maxInodes) (Q : Nat → Prop)
    (hmiss : ∀ block < N, v.dirBlock dir block = none → P (some miss) v)
    (hbody : ∀ block < N, ∀ s, leafSlot block = some s → v.ref dir s ≠ 0 →
      (body block (v.ref dir s) (v.blk (v.ref dir s))).ensures K (fun r v' =>
        match r with
        | some b => P (some b) v'
        | none => v' = v ∧ Q block) v) (hnone : (∀ block < N, Q block) → P none v) :
    (Prog.findSome (List.range N) fun block => do
      match ← getFileBlock (v.inodeAt dir) dir block false with
      | (none, _) => pure (some miss)
      | (some blk, _) =>
        match ← readBlk blk with
        | none => pure (some miss)
        | some buf => body block blk buf).ensures K P v := by
  refine ensures_findSome Q (fun block hblock => ?_) fun hall => hnone fun block hb => hall block (List.mem_range.mpr hb)
  replace hblock := List.mem_range.mp hblock
  rw [ensures_bind]
  refine ensures_mono (hK (within_getFileBlock (fun _ => trivial) (by nofun) block)
    (ensures_getFileBlock_false (h.data_target hdir) block)) fun res v' hres => ?_
  obtain ⟨rfl, rfl⟩ := hres
  cases hblk : v'.fileBlock (v'.inodeAt dir) block with
  | none => exact hmiss block hblock (by rw [dirBlock, hblk]; rfl)
  | some blk =>
    obtain ⟨s, hs, h0, rfl⟩ := fileBlock_eq_some.mp hblk
    rw [ensures_bind]
    exact hK (.request trivial) (ensures_readBlk (h.ref_target hdir h0).2.2 (hbody block hblock s hs h0))

end Scans

/-- The name is in no block of a directory that has all its blocks. -/
def Absent (v : Vol) (dir : Nat) (name : String) : Prop :=
  (∃ block < divCeil (v.inodeAt dir).size.toNat blockSize, v.dirBlock dir block = none) ∨
    ∀ block slot b, ¬EntryAt v dir name block slot b

/-- Both loops over a directory go through the same blocks. -/
theorem divCeil_entries (n : RawInode) : divCeil n.totalEntries direntriesPerBlock = divCeil n.size.toNat blockSize := by
  unfold RawInode.totalEntries divCeil direntriesPerBlock direntrySize blockSize
  omega

theorem EntryAt.block_lt {b : Block} (h : EntryAt v dir name block slot b) :
    block < divCeil (v.inodeAt dir).size.toNat blockSize := by
  have hc := h.covered
  rw [← divCeil_entries]
  unfold divCeil direntriesPerBlock at *
  omega

/-! ## Removing entries -/

/-- What is left of an inode that has lost a link. -/
inductive Dropped (ino : Nat) (v : Vol) : Vol → Prop
  | out (hino : maxInodes ≤ ino) : Dropped ino v (v.write inodeBitmapBlk (putBit (v.blk inodeBitmapBlk) ino false))
  | last (hino : ino < maxInodes) (hlast : satDec (v.inodeAt ino).nlink = 0#32) (v₁ : Vol) (ht : Vol.Truncated ino v v₁) :
    Dropped ino v (v₁.write inodeBitmapBlk (putBit (v₁.blk inodeBitmapBlk) ino false))
  | fewer (hino : ino < maxInodes) (hmore : satDec (v.inodeAt ino).nlink ≠ 0#32) :
    Dropped ino v (v.putInode ino { v.inodeAt ino with nlink := satDec (v.inodeAt ino).nlink })

theorem ensures_dropLink (h : v.Owned) (ino : Nat) : (dropLink ino).ensures volume (fun _ => Dropped ino v) v := by
  rw [dropLink, ensures_bind]
  refine ensures_readInode (fun hino => ?_) fun hout => ?_
  · dsimp only [Option.getD_some]
    by_cases hlast : satDec (v.inodeAt ino).nlink = 0#32
    · rw [if_pos hlast, ensures_bind]
      refine ensures_mono (ensures_fileTruncate h hino) fun _ v₁ ht => ?_
      refine ensures_mono (ensures_freeInode ino) fun _ v₂ h₂ => ?_
      rw [h₂]
      exact .last hino hlast v₁ ht
    · rw [if_neg hlast, ensures_bind]
      exact ensures_writeInode hino (.fewer hino hlast)
  · rw [if_pos (by decide), ensures_bind]
    refine ensures_mono (ensures_fileTruncate_out hout) fun _ v₁ h₁ => ?_
    rw [h₁]
    refine ensures_mono (ensures_freeInode ino) fun _ v₂ h₂ => ?_
    rw [h₂]
    exact .out hout

/-- Nothing but the inode that has lost its last link is touched. -/
theorem Dropped.touches_last (hd : Dropped ino v v') (h : v.Owned) :
    Vol.Touches (fun d => d = ino ∧ (ino < maxInodes → satDec (v.inodeAt ino).nlink = 0#32)) v v' := by
  cases hd with
  | out hino => exact (h.touches_inodeBitmap ino false).mono fun d hd => ⟨hd, fun hlt => absurd hlt (by omega)⟩
  | last hino hlast v₁ ht =>
    have ht' := ht.touches h hino
    exact (ht'.trans (ht'.owned.touches_inodeBitmap ino false)).mono fun d hd => ⟨hd, fun _ => hlast⟩
  | fewer hino _ =>
    exact Vol.Touches.mono (h.touches_links hino (fun r => by cases r <;> rfl) rfl rfl) fun _ h => h.elim

theorem Dropped.touches (hd : Dropped ino v v') (h : v.Owned) : Vol.Touches (· = ino) v v' :=
  (hd.touches_last h).mono fun _ hT => hT.1

theorem Dropped.itype (hd : Dropped ino v v') (d : Nat) : (v'.inodeAt d).itype = (v.inodeAt d).itype := by
  cases hd with
  | out hino => rw [inodeAt_write (inodeBitmap_ne_table d).symm]
  | last hino _ v₁ ht =>
    rw [inodeAt_write (inodeBitmap_ne_table d).symm]
    by_cases hi : d = ino
    · rw [hi, ht.inode]
      rfl
    · rw [ht.inodes d hi]
  | fewer hino _ =>
    by_cases hi : d = ino
    · rw [hi, inodeAt_putInode_self]
    · rw [inodeAt_putInode_of_ne hi]

/-- No inode gets a block. -/
theorem Dropped.ref (hd : Dropped ino v v') (h : v.Owned) {d : Nat} (hd' : d < maxInodes) (s : Slot) :
    v'.ref d s = 0 ∨ v'.ref d s = v.ref d s := by
  by_cases hne : d = ino
  · subst hne
    cases hd with
    | out hino => exact absurd hd' (by omega)
    | last hino _ v₁ ht =>
      left
      rw [(ht.owned h hino).ref_write_inodeBitmap hino, ht.ref h hino hino, if_pos rfl]
    | fewer hino _ =>
      right
      rw [h.ref_putInode hino (fun r => .inr (by cases r <;> rfl)) hino, if_pos rfl]
      exact refIn_same (fun r => by cases r <;> rfl) s
  · exact .inr (((hd.touches h).same d hd' hne).ref s)

/-- The volume once `dir_unlink` has removed an entry from the block of a slot of the directory. -/
def Removed (dir : Nat) (s : Slot) (slot : Nat) (de : Dirent) (v v' : Vol) : Prop :=
  ∃ v₁, Dropped de.inode v v₁ ∧ v' = (v₁.bumped dir de.etype satDec).write (v.ref dir s)
    (direntClear (v.blk (v.ref dir s)) (slot * direntrySize))

/-- The block of the entry holds no pointers, even if the directory itself has lost its blocks. -/
theorem Dropped.not_pointers (hd : Dropped ino v v₁) (h : v.Owned) (hdir : dir < maxInodes) (hs : ¬s.Interior)
    (h0 : v.ref dir s ≠ 0) (etype : BitVec 8) : ¬(v₁.bumped dir etype satDec).Pointers (v.ref dir s) := by
  rintro ⟨i, hi, p, hint, hp⟩
  have hbump := (hd.touches h).owned.touches_bumped hdir etype satDec
  rw [(hbump.same i hi id).ref] at hp
  rcases hd.ref h hi p with hz | hz
  · exact h0 (hp.symm.trans hz)
  · exact h.not_pointers hdir hs h0 ⟨i, hi, p, hint, hz.symm.trans hp⟩

section
variable {s : Slot} {slot : Nat} {de : Dirent} (hr : Removed dir s slot de v v') (h : v.Owned)
  (hdir : dir < maxInodes)
include hr h hdir

/-- Nothing but the directory and the inode that has lost its last link is touched. -/
theorem Removed.touches_last (hs : ¬s.Interior) (h0 : v.ref dir s ≠ 0) : Vol.Touches (fun d =>
      (d = de.inode ∧ (de.inode < maxInodes → satDec (v.inodeAt de.inode).nlink = 0#32)) ∨ d = dir) v v' := by
  obtain ⟨v₁, hd, rfl⟩ := hr
  have hdrop := hd.touches_last h
  have hbump := hdrop.owned.touches_bumped hdir de.etype satDec
  have hwrite := hbump.owned.touches_write (x := direntClear (v.blk (v.ref dir s)) (slot * direntrySize))
    (h.start dir hdir s h0) (hd.not_pointers h hdir hs h0 de.etype) fun d hd' t ht => by
      rw [(hbump.same d hd' id).ref] at ht
      rcases hd.ref h hd' t with hz | hz
      · exact absurd (ht.symm.trans hz) h0
      · exact (h.once d hd' dir hdir t s (by rw [← hz, ht]; exact h0) (hz.symm.trans ht)).1
  exact ((hdrop.mono fun _ => .inl).trans (hbump.mono fun _ h => h.elim)).trans (hwrite.mono fun _ => .inr)

theorem Removed.touches (hs : ¬s.Interior) (h0 : v.ref dir s ≠ 0) :
    Vol.Touches (fun d => d = de.inode ∨ d = dir) v v' :=
  (hr.touches_last h hdir hs h0).mono fun _ hT => hT.imp_left And.left

theorem Removed.itype (h0 : v.ref dir s ≠ 0) {d : Nat} (hd : d < maxInodes) :
    (v'.inodeAt d).itype = (v.inodeAt d).itype := by
  obtain ⟨v₁, hdrop, rfl⟩ := hr
  rw [inodeAt_write (not_table (h.start dir hdir s h0) hd),
    (((hdrop.touches h).owned.touches_bumped hdir de.etype satDec).same d hd id).itype, hdrop.itype]

end

theorem ensures_removeEntry (h : v.Owned) (hdir : dir < maxInodes) (h0 : v.ref dir s ≠ 0) (slot : Nat) (de : Dirent) :
    (removeEntry dir (v.ref dir s) (v.blk (v.ref dir s)) (slot * direntrySize) de).ensures volume
      (fun _ => Removed dir s slot de v) v := by
  rw [removeEntry, ensures_bind]
  refine ensures_mono (ensures_dropLink h de.inode) fun _ v₁ hd => ?_
  rw [ensures_bind]
  refine ensures_mono (ensures_bumpParent hdir de.etype satDec) fun _ v₂ h₂ => ?_
  rw [ensures_bind]
  refine ensures_writeBlk (h.ref_target hdir h0) ?_
  refine ensures_commitTxn fun _ => ?_
  rw [h₂]
  exact ⟨v₁, hd, rfl⟩

/-- What `dir_unlink` does. -/
theorem ensures_dirUnlink (h : v.Owned) (dir : Nat) (name : String) : (dirUnlink dir name).ensures volume (fun ok v' =>
    match ok with
    | false => v' = v ∧ (dir < maxInodes → Absent v dir name)
    | true => dir < maxInodes ∧ ∃ block slot s, leafSlot block = some s ∧ v.ref dir s ≠ 0 ∧
      EntryAt v dir name block slot (v.blk (v.ref dir s)) ∧
      Removed dir s slot (direntRead (v.blk (v.ref dir s)) (slot * direntrySize)) v v') v := by
  rw [dirUnlink, ensures_bind]
  refine ensures_readInode (fun hdir => ?_) fun hout => ⟨rfl, fun h => absurd h (by omega)⟩
  rw [ensures_bind]
  refine ensures_findBlock (fun _ hp => hp) h hdir (fun block => ∀ slot b, ¬EntryAt v dir name block slot b)
    (fun block hb hnone => ?_) (fun block hb s hs h0 => ?_) fun hall => ?_
  · rw [divCeil_entries] at hb
    exact ⟨rfl, fun _ => .inl ⟨block, hb, hnone⟩⟩
  · refine ensures_scanBlock (fun _ _ => ensures_direntNameEq ..) (fun slot hslot hcov hnamed => ?_)
      fun hno => ⟨rfl, fun slot b he => ?_⟩
    · rw [ensures_bind]
      refine ensures_mono (ensures_removeEntry h hdir h0 slot _) fun _ v' hr => ?_
      exact ⟨true, rfl, hdir, block, slot, s, hs, h0, ⟨dirBlock_of_slot hs h0, hslot, hcov, hnamed⟩, hr⟩
    · have hb' := he.block_eq
      rw [dirBlock_of_slot hs h0] at hb'
      cases hb'
      exact hno slot he.slot_lt he.covered he.named
  · refine ⟨rfl, fun _ => .inr fun block slot b he => hall block ?_ slot b he⟩
    rw [divCeil_entries]
    exact he.block_lt

theorem owned_dirUnlink (h : v.Owned) (dir : Nat) (name : String) :
    (dirUnlink dir name).ensures volume (fun _ v' => v'.Owned) v := by
  refine ensures_mono (ensures_dirUnlink h dir name) fun ok v' hr => ?_
  cases ok with
  | false =>
    rw [hr.1]
    exact h
  | true =>
    obtain ⟨hdir, block, slot, s, hs, h0, _, hr⟩ := hr
    exact (hr.touches h hdir (leafSlot_leaf hs) h0).owned

end OpenV.Vfs
