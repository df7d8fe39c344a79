import OpenV.Vfs.Volume

/- The blocks of a volume and the inodes that refer to them.

   An inode refers to blocks through slots: its own pointers and the pointers of its
   indirect blocks, three levels deep. `Owned` says that no block is referred to twice
   and that every block referred to lies behind the journal and is marked in the block
   bitmap. `Slot.parent_induction` is the induction along the tree; `ref_link` says how
   the references change when one slot gets a new block, and `refIn_congr` that they
   depend on nothing but the blocks that hold pointers. -/
namespace OpenV.Vfs

/-! ## Slots -/

/-- A place that refers to a block of a file: in the inode, in its indirect block, in its double indirect block, or in
an indirect block below that one. -/
inductive Slot where
  | root (r : Root)
  | single (i : Fin nptrs)
  | outer (i : Fin nptrs)
  | inner (i j : Fin nptrs)
  deriving DecidableEq

namespace Slot

/-- The slot whose block holds this one, and the index in that block. -/
def parent : Slot → Option (Slot × Fin nptrs)
  | root _ => none
  | single i => some (root .indirect, i)
  | outer i => some (root .doubleIndirect, i)
  | inner i j => some (outer i, j)

/-- The block of the slot holds pointers. -/
def Interior : Slot → Prop
  | root .indirect => True
  | root .doubleIndirect => True
  | outer _ => True
  | _ => False

variable {s s' p : Slot} {i : Fin nptrs}

theorem interior_of_parent (h : s.parent = some (p, i)) : p.Interior := by
  cases s <;> cases h <;> trivial

theorem ne_parent (h : s.parent = some (p, i)) : s ≠ p := by
  cases s <;> cases h <;> intro h' <;> cases h'

theorem eq_of_parent (h : s.parent = some (p, i)) (h' : s'.parent = some (p, i)) : s = s' := by
  cases s <;> cases h <;> cases s' <;> cases h' <;> rfl

/-- Induction along the tree of a file. -/
theorem parent_induction {P : Slot → Prop} (hroot : ∀ r, P (root r))
    (hstep : ∀ s p i, s.parent = some (p, i) → P p → P s) : ∀ s, P s
  | root r => hroot r
  | single i => hstep _ _ i rfl (hroot _)
  | outer i => hstep _ _ i rfl (hroot _)
  | inner i j => hstep _ _ j rfl (hstep _ _ i rfl (hroot _))

end Slot

/-! ## References -/

namespace Vol

/-- The pointer at an index of an indirect block. -/
def ptr (v : Vol) (b i : Nat) : Nat := (u32Le (v.blk b) (i * 4)).toNat

/-- The pointer, if there is a block. -/
def entry (v : Vol) (b i : Nat) : Nat := if b = 0 then 0 else v.ptr b i

/-- The block that a slot of an inode refers to; 0 if there is none. -/
def refIn (v : Vol) (n : RawInode) : Slot → Nat
  | .root r => (n.root r).toNat
  | .single i => v.entry n.indirect.toNat i
  | .outer i => v.entry n.doubleIndirect.toNat i
  | .inner i j => v.entry (v.entry n.doubleIndirect.toNat i) j

def ref (v : Vol) (ino : Nat) (s : Slot) : Nat := v.refIn (v.inodeAt ino) s

/-- The bit of a block in the block bitmap. -/
def bit (v : Vol) (b : Nat) : Bool := bitSet (v.blk blockBitmapBlk) b

/-- No block is referred to twice; every block that is lies behind the journal and is marked as used. -/
structure Owned (v : Vol) : Prop where
  start : ∀ ino < maxInodes, ∀ s, v.ref ino s ≠ 0 → dataStart ≤ v.ref ino s
  limit : ∀ ino < maxInodes, ∀ s, v.ref ino s < bitmapBits
  marked : ∀ ino < maxInodes, ∀ s, v.ref ino s ≠ 0 → v.bit (v.ref ino s) = true
  once : ∀ ino < maxInodes, ∀ ino' < maxInodes, ∀ s s', v.ref ino s ≠ 0 → v.ref ino s = v.ref ino' s' →
    ino = ino' ∧ s = s'

section
variable {v v' : Vol} {n : RawInode} {ino ino' b nb : Nat} {s p : Slot} {i : Fin nptrs} {d : Block}

theorem refIn_of_parent (h : s.parent = some (p, i)) : v.refIn n s = v.entry (v.refIn n p) i := by
  cases s <;> cases h <;> rfl

theorem entry_zero (i : Nat) : v.entry 0 i = 0 := if_pos rfl

theorem entry_of_ne (h : b ≠ 0) (i : Nat) : v.entry b i = v.ptr b i := if_neg h

theorem refIn_eq_zero (h : s.parent = some (p, i)) (hp : v.refIn n p = 0) : v.refIn n s = 0 := by
  rw [refIn_of_parent h, hp, entry_zero]

theorem ptr_zeroBlock (h : v.blk b = zeroBlock) (i : Nat) : v.ptr b i = 0 := by
  have hword : u32Le zeroBlock (i * 4) = 0#32 := by
    unfold u32Le zeroBlock
    decide
  rw [ptr, h, hword]
  rfl

/-- References depend on nothing but the blocks that hold pointers. -/
theorem refIn_congr (h : ∀ p, p.Interior → v.refIn n p ≠ 0 → v'.blk (v.refIn n p) = v.blk (v.refIn n p)) (s : Slot) :
    v'.refIn n s = v.refIn n s := by
  induction s using Slot.parent_induction with
  | hroot r => rfl
  | hstep s p i hp ih =>
    rw [refIn_of_parent hp, refIn_of_parent hp, ih]
    by_cases h0 : v.refIn n p = 0
    · rw [h0, entry_zero, entry_zero]
    · rw [entry_of_ne h0, entry_of_ne h0, ptr, ptr, h p (Slot.interior_of_parent hp) h0]

/-- The block holds pointers of some inode. -/
def Pointers (v : Vol) (b : Nat) : Prop := ∃ ino < maxInodes, ∃ p : Slot, p.Interior ∧ v.ref ino p = b

theorem not_table (hb : dataStart ≤ b) (hino : ino < maxInodes) : tableBlk ino ≠ b := by
  unfold dataStart at hb
  unfold tableBlk inodeTableStart inodesPerBlock
  unfold maxInodes at hino
  omega

/-- A write outside the inode table to a block without pointers. -/
theorem ref_write (hb : dataStart ≤ b) (hp : ¬v.Pointers b) (hino : ino < maxInodes) (s : Slot) :
    (v.write b d).ref ino s = v.ref ino s := by
  rw [ref, inodeAt_write (not_table hb hino)]
  refine refIn_congr (fun p hint _ => write_of_ne fun h => hp ⟨ino, hino, p, hint, h⟩) s

/-- A write below the data blocks that leaves the inode as it is. -/
theorem refIn_write_low (hb : b < dataStart) (hn : ∀ p, p.Interior → v.refIn n p ≠ 0 → dataStart ≤ v.refIn n p)
    (s : Slot) : (v.write b d).refIn n s = v.refIn n s :=
  refIn_congr (fun p hint h0 => write_of_ne fun h => by
    have := hn p hint h0
    omega) s

/-- One slot gets a block. Where the slot is to hold pointers, it was empty before and the block has zeros. -/
theorem ref_link {c : Slot} (hnb : nb ≠ 0) (hroot : ∀ ino' < maxInodes, ∀ r, v'.ref ino' (.root r) =
      if ino' = ino ∧ Slot.root r = c then nb else v.ref ino' (.root r))
    (hentry : ∀ ino' < maxInodes, ∀ (s p : Slot) (i : Fin nptrs), s.parent = some (p, i) → v.ref ino' p ≠ 0 →
      v'.ptr (v.ref ino' p) i = if ino' = ino ∧ s = c then nb else v.ptr (v.ref ino' p) i)
    (hparent : ∀ p i, c.parent = some (p, i) → v.ref ino p ≠ 0)
    (hempty : c.Interior → v.ref ino c = 0 ∧ v'.blk nb = zeroBlock) :
    ∀ ino' < maxInodes, ∀ s, v'.ref ino' s = if ino' = ino ∧ s = c then nb else v.ref ino' s := by
  intro ino' hino' s
  induction s using Slot.parent_induction with
  | hroot r => exact hroot ino' hino' r
  | hstep s p i hp ih =>
    have hv' : v'.ref ino' s = v'.entry (v'.ref ino' p) i := refIn_of_parent hp
    have hv : v.ref ino' s = v.entry (v.ref ino' p) i := refIn_of_parent hp
    by_cases hpc : ino' = ino ∧ p = c
    · -- the new block has no pointers yet
      obtain ⟨rfl, rfl⟩ := hpc
      obtain ⟨h0, hz⟩ := hempty (Slot.interior_of_parent hp)
      rw [if_pos ⟨rfl, rfl⟩] at ih
      rw [if_neg fun h => Slot.ne_parent hp h.2, hv', hv, ih, h0, entry_zero, entry_of_ne hnb, ptr_zeroBlock hz]
    · rw [if_neg hpc] at ih
      by_cases h0 : v.ref ino' p = 0
      · have hne : ¬(ino' = ino ∧ s = c) := by
          rintro ⟨rfl, rfl⟩
          exact hparent p i hp h0
        rw [if_neg hne, hv', hv, ih, h0, entry_zero, entry_zero]
      · rw [hv', hv, ih, entry_of_ne h0, entry_of_ne h0, hentry ino' hino' s p i hp h0]

end

/-! ## Owned volumes -/

namespace Owned
variable {v v' : Vol} {ino ino' b nb : Nat} {s s' p c : Slot}

theorem ref_target (h : v.Owned) (hino : ino < maxInodes) (h0 : v.ref ino s ≠ 0) : Target (v.ref ino s) := by
  have hl := h.limit ino hino s
  unfold bitmapBits at hl
  exact target_of_dataStart_le (h.start ino hino s h0) (by omega)

/-- A block that is not marked is not referred to. -/
theorem unused (h : v.Owned) (hbit : v.bit nb = false) (hnb : nb ≠ 0) (hino : ino < maxInodes) : v.ref ino s ≠ nb := by
  intro hs
  have := h.marked ino hino s (by rw [hs]; exact hnb)
  rw [hs, hbit] at this
  cases this

/-- The block of a slot without pointers holds none of another slot's either. -/
theorem not_pointers (h : v.Owned) (hino : ino < maxInodes) (hs : ¬s.Interior) (h0 : v.ref ino s ≠ 0) :
    ¬v.Pointers (v.ref ino s) := by
  rintro ⟨ino', hino', p, hint, hp⟩
  obtain ⟨_, rfl⟩ := h.once ino hino ino' hino' s p h0 hp.symm
  exact hs hint

/-- Fewer references and more marks. -/
theorem mono (h : v.Owned) (href : ∀ ino < maxInodes, ∀ s, v'.ref ino s = 0 ∨ v'.ref ino s = v.ref ino s)
    (hbit : ∀ ino < maxInodes, ∀ s, v'.ref ino s ≠ 0 → v'.bit (v'.ref ino s) = v.bit (v'.ref ino s)) : v'.Owned := by
  have hsame : ∀ {ino s}, ino < maxInodes → v'.ref ino s ≠ 0 → v'.ref ino s = v.ref ino s :=
    fun hino h0 => (href _ hino _).resolve_left h0
  refine ⟨fun ino hino s h0 => ?_, fun ino hino s => ?_, fun ino hino s h0 => ?_, fun ino hino ino' hino' s s' h0 he => ?_⟩
  · have hs := hsame hino h0
    rw [hs] at h0 ⊢
    exact h.start ino hino s h0
  · rcases href ino hino s with h0 | h0
    · rw [h0]
      decide
    · rw [h0]
      exact h.limit ino hino s
  · have hs := hsame hino h0
    rw [hbit ino hino s h0]
    rw [hs] at h0 ⊢
    exact h.marked ino hino s h0
  · have h0' : v'.ref ino' s' ≠ 0 := by
      rw [← he]
      exact h0
    rw [hsame hino h0, hsame hino' h0'] at he
    rw [hsame hino h0] at h0
    exact h.once ino hino ino' hino' s s' h0 he

/-- One slot gets a block that was not marked. -/
theorem link (h : v.Owned) (hfree : v.bit nb = false) (hstart : dataStart ≤ nb) (hlimit : nb < bitmapBits)
    (href : ∀ ino' < maxInodes, ∀ s, v'.ref ino' s = if ino' = ino ∧ s = c then nb else v.ref ino' s)
    (hbits : ∀ b, v'.bit b = if b = nb then true else v.bit b) : v'.Owned := by
  have hnb : nb ≠ 0 := by
    unfold dataStart at hstart
    omega
  refine ⟨fun i hi s => ?_, fun i hi s => ?_, fun i hi s => ?_, fun i hi i' hi' s s' => ?_⟩
  · rw [href i hi]
    split_ifs
    · exact fun _ => hstart
    · exact h.start i hi s
  · rw [href i hi]
    split_ifs
    · exact hlimit
    · exact h.limit i hi s
  · rw [href i hi, hbits]
    split_ifs with h1 h2 h3
    · exact fun _ => rfl
    · exact absurd rfl h2
    · exact fun _ => rfl
    · exact h.marked i hi s
  · rw [href i hi, href i' hi']
    split_ifs with h1 h2 h2
    · exact fun _ _ => ⟨h1.1.trans h2.1.symm, h1.2.trans h2.2.symm⟩
    · exact fun _ he => absurd he.symm (h.unused hfree hnb hi')
    · exact fun _ he => absurd he (h.unused hfree hnb hi)
    · exact h.once i hi i' hi' s s'

end Owned

end Vol
end OpenV.Vfs
