import OpenV.Vfs.Truncate

/- Which files a change of the volume is seen in. `Touches T` says that the volume stays
   owned and that every file and directory outside `T` is as it was, up to its number of
   links: the same blocks in the same slots, with the same data. The elementary changes
   (an inode, a data block, a bit of the inode bitmap, growth, truncation) each touch one
   inode or none. -/
namespace OpenV.Vfs

open Vol

namespace Vol
variable {v v' v₁ v₂ : Vol} {ino d b : Nat} {n : RawInode} {x : Block} {S T : Nat → Prop}

/-- The bit of an inode in the inode bitmap. -/
def ibit (v : Vol) (ino : Nat) : Bool := bitSet (v.blk inodeBitmapBlk) ino

/-- A file or directory is as it was, up to its number of links. -/
structure Same (d : Nat) (v v' : Vol) : Prop where
  itype : (v'.inodeAt d).itype = (v.inodeAt d).itype
  size : (v'.inodeAt d).size = (v.inodeAt d).size
  ref : ∀ s, v'.ref d s = v.ref d s
  data : ∀ s, ¬s.Interior → v.ref d s ≠ 0 → v'.blk (v.ref d s) = v.blk (v.ref d s)
  ibit : v'.ibit d = v.ibit d

theorem Same.refl (d : Nat) (v : Vol) : Same d v v := ⟨rfl, rfl, fun _ => rfl, fun _ _ _ => rfl, rfl⟩

theorem Same.trans (h₁ : Same d v v₁) (h₂ : Same d v₁ v₂) : Same d v v₂ := by
  refine ⟨h₂.itype.trans h₁.itype, h₂.size.trans h₁.size, fun s => (h₂.ref s).trans (h₁.ref s), fun s hs h0 => ?_,
    h₂.ibit.trans h₁.ibit⟩
  have hdata := h₂.data s hs (by rw [h₁.ref]; exact h0)
  rw [h₁.ref] at hdata
  rw [hdata, h₁.data s hs h0]

/-- The volume is owned, and the files outside `T` are as they were. -/
structure Touches (T : Nat → Prop) (v v' : Vol) : Prop where
  owned : v'.Owned
  total : v'.total = v.total
  same : ∀ d < maxInodes, ¬T d → Same d v v'

theorem Touches.refl (h : v.Owned) : Touches T v v := ⟨h, rfl, fun d _ _ => .refl d v⟩

theorem Touches.trans (h₁ : Touches T v v₁) (h₂ : Touches T v₁ v₂) : Touches T v v₂ :=
  ⟨h₂.owned, h₂.total.trans h₁.total, fun d hd hT => (h₁.same d hd hT).trans (h₂.same d hd hT)⟩

theorem Touches.mono (h : Touches S v v') (hST : ∀ d, S d → T d) : Touches T v v' :=
  ⟨h.owned, h.total, fun d hd hT => h.same d hd fun hS => hT (hST d hS)⟩

/-- Growth of one file. -/
theorem Grows.touches (hg : Grows ino v v') : Touches (· = ino) v v' := by
  refine ⟨hg.owned, hg.total, fun d hd hne => ?_⟩
  have hinode := hg.inodes d hd hne
  refine ⟨by rw [hinode], by rw [hinode], hg.others d hd hne, hg.data d hd, ?_⟩
  rw [ibit, hg.inodeBitmap, ibit]

/-- An inode keeps or drops its pointers. -/
theorem Owned.touches_putInode (h : v.Owned) (hino : ino < maxInodes)
    (hr : ∀ r, n.root r = 0#32 ∨ n.root r = (v.inodeAt ino).root r) : Touches (· = ino) v (v.putInode ino n) := by
  refine ⟨h.putInode hino hr, rfl, fun d hd hne => ?_⟩
  have hinode := inodeAt_putInode_of_ne (v := v) (n := n) (show d ≠ ino from hne)
  refine ⟨by rw [hinode], by rw [hinode], fun s => ?_, fun s _ h0 => ?_, ?_⟩
  · rw [h.ref_putInode hino hr hd, if_neg hne]
  · exact putInode_of_ne (not_table (h.start d hd s h0) hino).symm
  · rw [ibit, putInode_of_ne (inodeBitmap_ne_table ino), ibit]

/-- An inode changes in its number of links, if at all. -/
theorem Owned.touches_links (h : v.Owned) (hino : ino < maxInodes) (hr : ∀ r, n.root r = (v.inodeAt ino).root r)
    (ht : n.itype = (v.inodeAt ino).itype) (hs : n.size = (v.inodeAt ino).size) :
    Touches (fun _ => False) v (v.putInode ino n) := by
  have hput := h.touches_putInode hino fun r => .inr (hr r)
  refine ⟨hput.owned, rfl, fun d hd _ => ?_⟩
  by_cases hi : d = ino
  · subst hi
    refine ⟨?_, ?_, fun s => ?_, fun s _ h0 => ?_, ?_⟩
    · rw [inodeAt_putInode_self, ht]
    · rw [inodeAt_putInode_self, hs]
    · rw [h.ref_putInode hino (fun r => .inr (hr r)) hino, if_pos rfl]
      exact refIn_same hr s
    · exact putInode_of_ne (not_table (h.start d hd s h0) hino).symm
    · rw [ibit, putInode_of_ne (inodeBitmap_ne_table d), ibit]
  · exact hput.same d hd hi

/-- A block without pointers is written. -/
theorem Owned.touches_write (h : v.Owned) (hb : dataStart ≤ b) (hp : ¬v.Pointers b)
    (hT : ∀ d < maxInodes, ∀ s, v.ref d s = b → T d) : Touches T v (v.write b x) := by
  refine ⟨h.write hb hp, rfl, fun d hd hd' => ?_⟩
  have hinode := inodeAt_write (v := v) (d := x) (not_table hb hd)
  refine ⟨by rw [hinode], by rw [hinode], ref_write hb hp hd, fun s _ _ => ?_, ?_⟩
  · exact write_of_ne fun he => hd' (hT d hd s he)
  · have hne : inodeBitmapBlk ≠ b := by
      unfold dataStart at hb
      unfold inodeBitmapBlk
      omega
    rw [ibit, write_of_ne hne, ibit]

/-- A data block of a file is written. -/
theorem Owned.touches_leaf (h : v.Owned) (hino : ino < maxInodes) {s : Slot} (hs : ¬s.Interior) (h0 : v.ref ino s ≠ 0) :
    Touches (· = ino) v (v.write (v.ref ino s) x) :=
  h.touches_write (h.start ino hino s h0) (h.not_pointers hino hs h0) fun d hd t ht =>
    (h.once d hd ino hino t s (by rw [ht]; exact h0) ht).1

/-- An inode is allocated or freed. -/
theorem Owned.touches_inodeBitmap (h : v.Owned) (ino : Nat) (value : Bool) :
    Touches (· = ino) v (v.write inodeBitmapBlk (putBit (v.blk inodeBitmapBlk) ino value)) := by
  refine ⟨h.write_inodeBitmap, rfl, fun d hd hne => ?_⟩
  have hinode := fun x => inodeAt_write (v := v) (d := x) (inodeBitmap_ne_table d).symm
  refine ⟨by rw [hinode], by rw [hinode], h.ref_write_inodeBitmap hd, fun s _ h0 => ?_, ?_⟩
  · exact write_of_ne (h.ref_ne_low (by decide) hd h0)
  · rw [ibit, write_self, bitSet_putBit, if_neg hne, ibit]

theorem Truncated.touches (ht : Truncated ino v v') (h : v.Owned) (hino : ino < maxInodes) : Touches (· = ino) v v' := by
  refine ⟨ht.owned h hino, ht.total, fun d hd hne => ?_⟩
  have hinode := ht.inodes d hne
  refine ⟨by rw [hinode], by rw [hinode], fun s => ?_, fun s _ h0 => ?_, ?_⟩
  · rw [ht.ref h hino hd, if_neg hne]
  · exact ht.blk _ (h.ref_ne_low (by decide) hd h0) (not_table (h.start d hd s h0) hino).symm
  · rw [ibit, ht.blk _ (by decide) (inodeBitmap_ne_table ino), ibit]

end Vol
end OpenV.Vfs
