import OpenV.Vfs.BlockMap

/- Giving blocks back: `free_block`, `free_indirect_blocks` and `file_truncate`. The bits
   that `file_truncate` clears are those of the blocks that the file refers to, found by
   walking down its tree, and no others (`Truncated.bits`). Further, the other ways in
   which an owned volume changes and stays owned: an inode that keeps or drops its
   pointers, and a block that holds none. -/
namespace OpenV.Vfs

open Prog Vol
namespace Vol
variable {v v' v₁ v₂ : Vol} {ino ino' b blk : Nat} {s p : Slot} {d : Block} {n n' : RawInode} {S T : Nat → Prop}

/-! ## Changes that keep a volume owned -/

/-- An inode with some of the pointers of another refers to some of its blocks. -/
theorem refIn_sub (h : ∀ r, n.root r = 0#32 ∨ n.root r = n'.root r) (s : Slot) :
    v.refIn n s = 0 ∨ v.refIn n s = v.refIn n' s := by
  induction s using Slot.parent_induction with
  | hroot r => exact (h r).imp (congrArg BitVec.toNat) (congrArg BitVec.toNat)
  | hstep s p i hp ih =>
    rcases ih with h0 | he
    · exact .inl (refIn_eq_zero hp h0)
    · right
      rw [refIn_of_parent hp, refIn_of_parent hp, he]

theorem refIn_same (h : ∀ r, n.root r = n'.root r) (s : Slot) : v.refIn n s = v.refIn n' s := by
  induction s using Slot.parent_induction with
  | hroot r => exact congrArg BitVec.toNat (h r)
  | hstep s p i hp ih => rw [refIn_of_parent hp, refIn_of_parent hp, ih]

section
variable (h : v.Owned) (hino : ino < maxInodes) (hr : ∀ r, n.root r = 0#32 ∨ n.root r = (v.inodeAt ino).root r)
include h hino hr

theorem Owned.ref_putInode (hino' : ino' < maxInodes) (s : Slot) :
    (v.putInode ino n).ref ino' s = if ino' = ino then v.refIn n s else v.ref ino' s := by
  have hlow : tableBlk ino < dataStart := by
    unfold tableBlk inodeTableStart inodesPerBlock dataStart
    unfold maxInodes at hino
    omega
  by_cases hi : ino' = ino
  · subst hi
    rw [if_pos rfl, ref, inodeAt_putInode_self]
    refine refIn_write_low hlow (fun p _ h0 => ?_) s
    have hsub := (refIn_sub hr p).resolve_left h0
    rw [hsub] at h0 ⊢
    exact h.start ino' hino' p h0
  · rw [if_neg hi, ref, inodeAt_putInode_of_ne hi]
    exact refIn_write_low hlow (fun p _ h0 => h.start ino' hino' p h0) s

/-- An inode keeps or drops its pointers. -/
theorem Owned.putInode : (v.putInode ino n).Owned := by
  refine h.mono (fun ino' hino' s => ?_) (fun _ _ _ _ => bit_putInode _)
  rw [h.ref_putInode hino hr hino']
  split_ifs with hi
  · subst hi
    exact refIn_sub hr s
  · exact .inr rfl

end

/-- A data block is written. -/
theorem Owned.write (h : v.Owned) (hb : dataStart ≤ b) (hp : ¬v.Pointers b) : (v.write b d).Owned := by
  have hne : blockBitmapBlk ≠ b := by
    unfold dataStart at hb
    unfold blockBitmapBlk
    omega
  exact h.mono (fun ino hino s => .inr (ref_write hb hp hino s)) fun _ _ _ _ => bit_write hne _

theorem Owned.ref_write_inodeBitmap (h : v.Owned) (hino : ino < maxInodes) (s : Slot) :
    (v.write inodeBitmapBlk d).ref ino s = v.ref ino s := by
  rw [ref, inodeAt_write (inodeBitmap_ne_table ino).symm]
  exact refIn_write_low (by decide) (fun p _ h0 => h.start ino hino p h0) s

theorem Owned.write_inodeBitmap (h : v.Owned) : (v.write inodeBitmapBlk d).Owned :=
  h.mono (fun _ hino s => .inr (h.ref_write_inodeBitmap hino s)) fun _ _ _ _ => bit_write (by decide) _

/-! ## Clearing bits -/

/-- The bits of the blocks in `S` are cleared. -/
structure Cleared (S : Nat → Prop) (v v' : Vol) : Prop where
  total : v'.total = v.total
  blk : ∀ b, b ≠ blockBitmapBlk → v'.blk b = v.blk b
  bits : ∀ b, v'.bit b = true ↔ v.bit b = true ∧ ¬S b

theorem Cleared.refl (hS : ∀ b, ¬S b) : Cleared S v v :=
  ⟨rfl, fun _ _ => rfl, fun b => ⟨fun h => ⟨h, hS b⟩, And.left⟩⟩

theorem Cleared.trans (h₁ : Cleared S v v₁) (h₂ : Cleared T v₁ v₂) : Cleared (fun b => S b ∨ T b) v v₂ := by
  refine ⟨h₂.total.trans h₁.total, fun b hb => (h₂.blk b hb).trans (h₁.blk b hb), fun b => ?_⟩
  rw [h₂.bits, h₁.bits, not_or, and_assoc]

theorem Cleared.congr (h : Cleared S v v') (hST : ∀ b, S b ↔ T b) : Cleared T v v' :=
  ⟨h.total, h.blk, fun b => by rw [h.bits, hST]⟩

theorem Cleared.inodeAt (h : Cleared S v v') (ino : Nat) : v'.inodeAt ino = v.inodeAt ino := by
  have hne : tableBlk ino ≠ blockBitmapBlk := by
    unfold tableBlk inodeTableStart inodesPerBlock blockBitmapBlk
    omega
  rw [Vol.inodeAt, h.blk _ hne, Vol.inodeAt]

theorem cleared_mark (v : Vol) (b : Nat) : Cleared (· = b) v (v.mark b false) := by
  refine ⟨rfl, fun k hk => mark_of_ne false hk, fun k => ?_⟩
  rw [bit_mark]
  split_ifs with h <;> simp [h]

/-- The blocks that `free_indirect_blocks` frees. -/
def Below (v : Vol) : Nat → Nat → Nat → Prop
  | 0, blk, b => blk ≠ 0 ∧ b = blk
  | depth + 1, blk, b => blk ≠ 0 ∧ ((∃ i < nptrs, v.Below depth (v.ptr blk i) b) ∨ b = blk)

theorem not_below_zero {depth : Nat} : ¬v.Below depth 0 b := by
  cases depth <;> exact fun h => h.1 rfl

/-- They depend on the blocks among them only. -/
theorem below_congr (depth : Nat) : ∀ {blk : Nat}, (∀ b, v.Below depth blk b → v'.blk b = v.blk b) → ∀ b,
    v'.Below depth blk b ↔ v.Below depth blk b := by
  induction depth with
  | zero => exact fun _ _ => Iff.rfl
  | succ depth ih =>
    intro blk h b
    by_cases h0 : blk = 0
    · exact ⟨fun hb => absurd h0 hb.1, fun hb => absurd h0 hb.1⟩
    · have hptr : ∀ i, v'.ptr blk i = v.ptr blk i := fun i => by
        rw [ptr, h blk ⟨h0, .inr rfl⟩, ptr]
      have hsub : ∀ i < nptrs, ∀ b, v'.Below depth (v.ptr blk i) b ↔ v.Below depth (v.ptr blk i) b := fun i hi =>
        ih fun b hb => h b ⟨h0, .inl ⟨i, hi, hb⟩⟩
      refine and_congr_right fun _ => or_congr_left ?_
      refine exists_congr fun i => and_congr_right fun hi => ?_
      rw [hptr, hsub i hi]

end Vol

section
variable {v : Vol} {blk : Nat}

theorem ensures_freeBlock (hb : dataStart ≤ blk) : (freeBlock blk).ensures volume (fun _ => Vol.Cleared (· = blk) v) v := by
  rw [freeBlock, if_pos hb, bitmapSet, ensures_bind]
  refine ensures_readBlk (by decide) ?_
  dsimp only
  by_cases hl : bitmapBits ≤ blk
  · rw [if_pos hl]
    exact ensures_panic _
  · rw [if_neg hl]
    exact ensures_writeBlk (by decide) (cleared_mark v blk)

theorem ensures_freeIndirectBlocks (depth : Nat) : ∀ {blk : Nat} {v : Vol}, (∀ b, v.Below depth blk b → Target b ∧ dataStart ≤ b) →
    (freeIndirectBlocks depth blk).ensures volume (fun _ => Vol.Cleared (v.Below depth blk) v) v := by
  induction depth with
  | zero =>
    intro blk v h
    rw [freeIndirectBlocks]
    by_cases h0 : blk = 0
    · rw [if_pos h0]
      exact .refl fun b hb => hb.1 h0
    · rw [if_neg h0]
      refine ensures_mono (ensures_freeBlock (h blk ⟨h0, rfl⟩).2) fun _ v' hv' => ?_
      exact hv'.congr fun b => ⟨fun hb => ⟨h0, hb⟩, fun hb => hb.2⟩
  | succ depth ih =>
    intro blk v h
    rw [freeIndirectBlocks]
    by_cases h0 : blk = 0
    · rw [if_pos h0]
      exact .refl fun b hb => hb.1 h0
    · have hblk := h blk ⟨h0, .inr rfl⟩
      rw [if_neg h0, ensures_bind]
      refine ensures_readBlk hblk.1.2.2 ?_
      rw [ensures_bind]
      -- the subtrees visited so far are cleared
      refine ensures_forEach (fun seen => Vol.Cleared (fun b => ∃ i ∈ seen, v.Below depth (v.ptr blk i) b) v)
        (.refl fun b hb => by simp at hb) (fun pre i post v' hsplit hv' => ?_) fun v' hv' => ?_
      · have hi : i < nptrs := List.mem_range.mp (Cmd.mem_of_split hsplit)
        have hgrow : ∀ b, ((∃ j ∈ pre, v.Below depth (v.ptr blk j) b) ∨ v.Below depth (v.ptr blk i) b) ↔
            ∃ j ∈ pre ++ [i], v.Below depth (v.ptr blk j) b := by
          intro b
          simp only [List.mem_append, List.mem_singleton, or_and_right, exists_or, exists_eq_left]
        have hsame : ∀ b, v.Below depth (v.ptr blk i) b → v'.blk b = v.blk b := fun b hb => by
          have hstart := (h b ⟨h0, .inl ⟨i, hi, hb⟩⟩).2
          refine hv'.blk b ?_
          unfold dataStart at hstart
          unfold blockBitmapBlk
          omega
        have hbelow := below_congr depth hsame
        refine ensures_onlyIf (fun _ => ?_) fun hz => ?_
        · refine ensures_mono (ih fun b hb => h b ⟨h0, .inl ⟨i, hi, (hbelow b).mp hb⟩⟩) fun _ v'' hv'' => ?_
          exact (hv'.trans (hv''.congr hbelow)).congr hgrow
        · refine hv'.congr fun b => Iff.trans ?_ (hgrow b)
          rw [show v.ptr blk i = 0 from not_not.mp hz]
          exact ⟨.inl, fun hb => hb.resolve_right not_below_zero⟩
      · refine ensures_mono (ensures_freeBlock hblk.2) fun _ v'' hv'' => ?_
        refine (hv'.trans hv'').congr fun b => ?_
        simp only [List.mem_range]
        exact ⟨fun hb => ⟨h0, hb⟩, fun hb => hb.2⟩

end

/-! ## Truncation -/

/-- An inode without blocks. -/
def RawInode.emptied (n : RawInode) : RawInode :=
  { n with direct := fun _ => 0#32, indirect := 0#32, doubleIndirect := 0#32, size := 0#32, usedBlocks := 0#32 }

namespace Vol
variable {v v' : Vol} {ino ino' b : Nat} {s : Slot}

/-- The block is one that the inode refers to. -/
def Uses (v : Vol) (ino b : Nat) : Prop := b ≠ 0 ∧ ∃ s, v.ref ino s = b

/-- The file has lost its blocks, and they are free. -/
structure Truncated (ino : Nat) (v v' : Vol) : Prop where
  total : v'.total = v.total
  bits : ∀ b, v'.bit b = true ↔ v.bit b = true ∧ ¬v.Uses ino b
  blk : ∀ b, b ≠ blockBitmapBlk → b ≠ tableBlk ino → v'.blk b = v.blk b
  inode : v'.inodeAt ino = (v.inodeAt ino).emptied
  inodes : ∀ ino', ino' ≠ ino → v'.inodeAt ino' = v.inodeAt ino'

theorem refIn_emptied (n : RawInode) (s : Slot) : v.refIn n.emptied s = 0 := by
  induction s using Slot.parent_induction with
  | hroot r => cases r <;> rfl
  | hstep s p i hp ih => exact refIn_eq_zero hp ih

/-- A tree of blocks by the slots of its root. -/
theorem below_zero_ref (b : Nat) : v.Below 0 (v.ref ino s) b ↔ b ≠ 0 ∧ v.ref ino s = b :=
  ⟨fun h => ⟨h.2 ▸ h.1, h.2.symm⟩, fun h => ⟨h.2 ▸ h.1, h.2.symm⟩⟩

theorem below_succ_ref {p : Slot} {c : Fin nptrs → Slot} (hc : ∀ i, (c i).parent = some (p, i)) (depth b : Nat) :
    v.Below (depth + 1) (v.ref ino p) b ↔ (∃ i, v.Below depth (v.ref ino (c i)) b) ∨ (b ≠ 0 ∧ v.ref ino p = b) := by
  by_cases h0 : v.ref ino p = 0
  · have hzero : ∀ i, v.ref ino (c i) = 0 := fun i => refIn_eq_zero (hc i) h0
    rw [h0]
    constructor
    · exact fun h => absurd h not_below_zero
    · rintro (⟨i, hi⟩ | ⟨hb, rfl⟩)
      · rw [hzero i] at hi
        exact absurd hi not_below_zero
      · exact absurd rfl hb
  · have hptr : ∀ i, v.ref ino (c i) = v.ptr (v.ref ino p) i := fun i =>
      (refIn_of_parent (hc i)).trans (entry_of_ne h0 i)
    constructor
    · rintro ⟨_, ⟨i, hi, hb⟩ | rfl⟩
      · refine .inl ⟨⟨i, hi⟩, ?_⟩
        rw [hptr]
        exact hb
      · exact .inr ⟨h0, rfl⟩
    · rintro (⟨i, hi⟩ | ⟨_, rfl⟩)
      · refine ⟨h0, .inl ⟨i, i.isLt, ?_⟩⟩
        rw [← hptr]
        exact hi
      · exact ⟨h0, .inr rfl⟩

/-- The three parts that `file_truncate` frees are the blocks of the file. -/
theorem uses_iff (b : Nat) : v.Uses ino b ↔ ((∃ i, b ≠ 0 ∧ v.ref ino (.root (.direct i)) = b) ∨
    v.Below 1 (v.ref ino (.root .indirect)) b) ∨ v.Below 2 (v.ref ino (.root .doubleIndirect)) b := by
  rw [below_succ_ref (c := .single) (fun _ => rfl), below_succ_ref (c := .outer) (fun _ => rfl)]
  have houter : ∀ i, v.Below 1 (v.ref ino (.outer i)) b ↔
      (∃ j, v.Below 0 (v.ref ino (.inner i j)) b) ∨ (b ≠ 0 ∧ v.ref ino (.outer i) = b) := fun i =>
    below_succ_ref (fun _ => rfl) 0 b
  simp only [below_zero_ref, houter]
  constructor
  · rintro ⟨hb, s, hs⟩
    cases s with
    | root r =>
      cases r with
      | direct i => exact .inl (.inl ⟨i, hb, hs⟩)
      | indirect => exact .inl (.inr (.inr ⟨hb, hs⟩))
      | doubleIndirect => exact .inr (.inr ⟨hb, hs⟩)
    | single i => exact .inl (.inr (.inl ⟨i, hb, hs⟩))
    | outer i => exact .inr (.inl ⟨i, .inr ⟨hb, hs⟩⟩)
    | inner i j => exact .inr (.inl ⟨i, .inl ⟨j, hb, hs⟩⟩)
  · rintro ((⟨i, hb, hs⟩ | ⟨i, hb, hs⟩ | ⟨hb, hs⟩) | ⟨i, ⟨j, hb, hs⟩ | ⟨hb, hs⟩⟩ | ⟨hb, hs⟩)
    all_goals exact ⟨hb, _, hs⟩

theorem Owned.uses_target (h : v.Owned) (hino : ino < maxInodes) (hb : v.Uses ino b) : Target b ∧ dataStart ≤ b := by
  obtain ⟨hb, s, rfl⟩ := hb
  exact ⟨h.ref_target hino hb, h.start ino hino s hb⟩

theorem Owned.uses_cleared {S : Nat → Prop} (hcl : Cleared S v v') (h : v.Owned) (hino : ino < maxInodes) {depth blk : Nat}
    (hsub : ∀ b, v.Below depth blk b → v.Uses ino b) (b : Nat) : v'.Below depth blk b ↔ v.Below depth blk b := by
  refine below_congr depth (fun b hb => hcl.blk b ?_) b
  have := (h.uses_target hino (hsub b hb)).2
  unfold dataStart at this
  unfold blockBitmapBlk
  omega

end Vol

section
variable {v v' : Vol} {ino : Nat}

/-- One of the two trees of indirect blocks. -/
theorem ensures_freeTree {S : Nat → Prop} (hcl : Vol.Cleared S v v') (h : v.Owned) (hino : ino < maxInodes) {r : Root}
    (depth : Nat) (hsub : ∀ b, v.Below depth (v.ref ino (.root r)) b → v.Uses ino b) :
    (Prog.onlyIf ((v.inodeAt ino).root r ≠ 0#32) (freeIndirectBlocks depth ((v.inodeAt ino).root r).toNat)).ensures volume
      (fun _ => Vol.Cleared (fun b => S b ∨ v.Below depth (v.ref ino (.root r)) b) v) v' := by
  have hbelow := Vol.Owned.uses_cleared hcl h hino hsub
  refine ensures_onlyIf (fun _ => ?_) fun h0 => ?_
  · refine ensures_mono (ensures_freeIndirectBlocks depth fun b hb => ?_) fun _ v'' hv'' => ?_
    · exact h.uses_target hino (hsub b ((hbelow b).mp hb))
    · exact hcl.trans (hv''.congr hbelow)
  · refine hcl.congr fun b => ⟨.inl, fun hb => hb.resolve_right fun hb => ?_⟩
    have hz : v.ref ino (.root r) = 0 := congrArg BitVec.toNat (not_not.mp h0)
    rw [hz] at hb
    exact not_below_zero hb

theorem ensures_fileTruncate (h : v.Owned) (hino : ino < maxInodes) :
    (fileTruncate ino).ensures volume (fun _ => Vol.Truncated ino v) v := by
  rw [fileTruncate, ensures_bind]
  refine ensures_readInode (fun _ => ?_) (fun h' => absurd hino (by omega))
  simp only [ensures_bind]
  have huses : ∀ b, ((∃ i, b ≠ 0 ∧ v.ref ino (.root (.direct i)) = b) ∨ v.Below 1 (v.ref ino (.root .indirect)) b) ∨
      v.Below 2 (v.ref ino (.root .doubleIndirect)) b → v.Uses ino b := fun b => (uses_iff b).mpr
  -- the direct blocks visited so far are free
  refine ensures_forEach (fun seen => Vol.Cleared (fun b => ∃ i ∈ seen, b ≠ 0 ∧
    v.ref ino (.root (.direct i)) = b) v) (.refl fun b hb => by simp at hb) (fun pre i post v₁ _ h₁ => ?_) fun v₁ h₁ => ?_
  · have hgrow : ∀ b, ((∃ j ∈ pre, b ≠ 0 ∧ v.ref ino (.root (.direct j)) = b) ∨
        (b ≠ 0 ∧ v.ref ino (.root (.direct i)) = b)) ↔
        ∃ j ∈ pre ++ [i], b ≠ 0 ∧ v.ref ino (.root (.direct j)) = b := by
      intro b
      simp only [List.mem_append, List.mem_singleton, or_and_right, exists_or, exists_eq_left]
    refine ensures_onlyIf (fun hd => ?_) fun hd => ?_
    · have h0 : v.ref ino (.root (.direct i)) ≠ 0 := fun h' => hd (BitVec.eq_of_toNat_eq h')
      refine ensures_mono (ensures_freeBlock (h.start ino hino _ h0)) fun _ v₂ h₂ => ?_
      refine (h₁.trans (h₂.congr fun b => ?_)).congr hgrow
      exact ⟨fun hb => ⟨hb ▸ h0, hb.symm⟩, fun hb => hb.2.symm⟩
    · have h0 : v.ref ino (.root (.direct i)) = 0 := congrArg BitVec.toNat (not_not.mp hd)
      refine h₁.congr fun b => Iff.trans ⟨.inl, fun hb => hb.resolve_right fun hb => ?_⟩ (hgrow b)
      rw [h0] at hb
      exact hb.1 hb.2.symm
  · have h₁' := h₁.congr (T := fun b => ∃ i, b ≠ 0 ∧ v.ref ino (.root (.direct i)) = b) fun b => by
      simp only [List.mem_finRange, true_and]
    refine ensures_mono (ensures_freeTree h₁' h hino 1 fun b hb => huses b (.inl (.inr hb)))
      fun _ v₂ h₂ => ?_
    refine ensures_mono (ensures_freeTree h₂ h hino 2 fun b hb => huses b (.inr hb))
      fun _ v₃ h₃ => ?_
    refine ensures_writeInode hino (ensures_commitTxn fun _ => ?_)
    have hcl := h₃.congr fun b => (uses_iff b).symm
    refine ⟨hcl.total, fun b => ?_, fun b hb hb' => ?_, ?_, fun ino' hne => ?_⟩
    · rw [bit_putInode]
      exact hcl.bits b
    · rw [putInode_of_ne hb']
      exact hcl.blk b hb
    · rw [inodeAt_putInode_self]
      rfl
    · rw [inodeAt_putInode_of_ne hne]
      exact hcl.inodeAt ino'

end

namespace Vol
variable {v v' : Vol} {ino ino' : Nat}

theorem Truncated.ref (ht : Truncated ino v v') (h : v.Owned) (hino : ino < maxInodes) (hino' : ino' < maxInodes) (s : Slot) :
    v'.ref ino' s = if ino' = ino then 0 else v.ref ino' s := by
  by_cases hi : ino' = ino
  · subst hi
    rw [if_pos rfl, ref, ht.inode, refIn_emptied]
  · rw [if_neg hi, Vol.ref, ht.inodes ino' hi]
    refine refIn_congr (fun p _ h0 => ht.blk _ ?_ (not_table (h.start ino' hino' p h0) hino).symm) s
    have := h.start ino' hino' p h0
    unfold dataStart at this
    show v.ref ino' p ≠ 1
    omega

/-- The blocks of the other files stay marked. -/
theorem Truncated.owned (ht : Truncated ino v v') (h : v.Owned) (hino : ino < maxInodes) : v'.Owned := by
  refine h.mono (fun ino' hino' s => ?_) (fun ino' hino' s h0 => ?_)
  · rw [ht.ref h hino hino']
    split_ifs
    · exact .inl rfl
    · exact .inr rfl
  · rw [ht.ref h hino hino'] at h0 ⊢
    split_ifs at h0 ⊢ with hi
    · exact absurd rfl h0
    · have hmark := h.marked ino' hino' s h0
      rw [hmark]
      refine (ht.bits _).mpr ⟨hmark, fun hu => ?_⟩
      obtain ⟨_, s', hs'⟩ := hu
      exact hi (h.once ino' hino' ino hino s s' h0 hs'.symm).1

end Vol
end OpenV.Vfs
