import OpenV.Vfs.Recovery

/- The on-disk formats of the block file system (`user/vfs-server/src/blockfs.rs`):
   inodes in the inode table, bits in the bitmaps and entries in directory blocks,
   each as the bytes of a block, with what reading gives back after writing. -/
namespace OpenV.Vfs

open Function

def blockSize : Nat := 4096
def maxInodes : Nat := 1024
def inodeSize : Nat := 128
def inodesPerBlock : Nat := 32
def direntrySize : Nat := 64
def direntriesPerBlock : Nat := 64
/-- The pointers of an indirect block. -/
def nptrs : Nat := 1024

def blockBitmapBlk : Nat := 1
def inodeBitmapBlk : Nat := 2
def inodeTableStart : Nat := 3
def inodeTableBlocks : Nat := 32
def dataStart : Nat := 68

def itypeFile : BitVec 8 := 1#8
def itypeDir : BitVec 8 := 2#8
def itypeSymlink : BitVec 8 := 3#8
def rootInode : Nat := 0

/-- `buf[off..off + len].copy_from_slice(..)`. -/
def copyInto (b : Block) (off len : Nat) (src : Nat → BitVec 8) : Block := fun i =>
  if off ≤ i ∧ i < off + len then src (i - off) else b i

section
variable {b b' : Block} {off len i : Nat} {src : Nat → BitVec 8}

theorem copyInto_at (h : i < len) : copyInto b off len src (off + i) = src i := by
  rw [copyInto, if_pos ⟨by omega, by omega⟩, Nat.add_sub_cancel_left]

theorem copyInto_out (h : i < off ∨ off + len ≤ i) : copyInto b off len src i = b i := by
  rw [copyInto, if_neg (by omega)]

/-- A word reads the same where its bytes do. -/
theorem u32Le_congr {off off' : Nat} (h : ∀ i < 4, b (off + i) = b' (off' + i)) : u32Le b off = u32Le b' off' := by
  rw [u32Le, u32Le, h 3 (by omega), h 2 (by omega), h 1 (by omega)]
  have h0 := h 0 (by omega)
  rw [Nat.add_zero, Nat.add_zero] at h0
  rw [h0]

end

/-! ## Inodes -/

structure RawInode where
  itype : BitVec 8 := 0#8
  pad : Fin 3 → BitVec 8 := fun _ => 0#8
  size : BitVec 32 := 0#32
  nlink : BitVec 32 := 0#32
  usedBlocks : BitVec 32 := 0#32
  direct : Fin 12 → BitVec 32 := fun _ => 0#32
  indirect : BitVec 32 := 0#32
  doubleIndirect : BitVec 32 := 0#32
  reserved : Fin 14 → BitVec 32 := fun _ => 0#32

namespace RawInode

/-- The words of an inode from the second on, in the order of the structure. -/
def word (n : RawInode) (k : Nat) : BitVec 32 :=
  if k = 1 then n.size
  else if k = 2 then n.nlink
  else if k = 3 then n.usedBlocks
  else if h : 4 ≤ k ∧ k < 16 then n.direct ⟨k - 4, by omega⟩
  else if k = 16 then n.indirect
  else if k = 17 then n.doubleIndirect
  else if h : 18 ≤ k ∧ k < 32 then n.reserved ⟨k - 18, by omega⟩
  else 0#32

def byte (n : RawInode) (i : Nat) : BitVec 8 :=
  if i = 0 then n.itype
  else if h : 1 ≤ i ∧ i < 4 then n.pad ⟨i - 1, by omega⟩
  else leByte (n.word (i / 4)) (i % 4)

end RawInode

/-- `raw_inode_read` at byte `off` of a block. -/
def rawInodeRead (b : Block) (off : Nat) : RawInode where
  itype := b off
  pad := fun i => b (off + (1 + i))
  size := u32Le b (off + 4)
  nlink := u32Le b (off + 8)
  usedBlocks := u32Le b (off + 12)
  direct := fun i => u32Le b (off + (16 + i * 4))
  indirect := u32Le b (off + 64)
  doubleIndirect := u32Le b (off + 68)
  reserved := fun i => u32Le b (off + (72 + i * 4))

/-- `raw_inode_write` at byte `off` of a block. -/
def rawInodeWrite (b : Block) (off : Nat) (n : RawInode) : Block := copyInto b off inodeSize n.byte

section
variable {b b' : Block} {off off' : Nat} {n : RawInode}

theorem u32Le_rawInodeWrite {k : Nat} (hk : 1 ≤ k ∧ k < 32) : u32Le (rawInodeWrite b off n) (off + k * 4) = n.word k := by
  have hat : ∀ j < 4, rawInodeWrite b off n (off + k * 4 + j) = leByte (n.word k) j := by
    intro j hj
    rw [rawInodeWrite, Nat.add_assoc, copyInto_at (by unfold inodeSize; omega), RawInode.byte, if_neg (by omega),
      dif_neg (by omega), show (k * 4 + j) / 4 = k by omega, show (k * 4 + j) % 4 = j by omega]
  have h0 := hat 0 (by omega)
  rw [Nat.add_zero] at h0
  rw [u32Le, hat 3 (by omega), hat 2 (by omega), hat 1 (by omega), h0]
  exact leBytes _

/-- An inode reads back as it was written. -/
theorem rawInodeRead_write : rawInodeRead (rawInodeWrite b off n) off = n := by
  have hitype : rawInodeWrite b off n off = n.itype := by
    have h : copyInto b off inodeSize n.byte (off + 0) = n.byte 0 := copyInto_at (by decide)
    exact h
  have hpad : ∀ i : Fin 3, rawInodeWrite b off n (off + (1 + i)) = n.pad i := by
    intro i
    rw [rawInodeWrite, copyInto_at (by unfold inodeSize; omega), RawInode.byte, if_neg (by omega),
      dif_pos ⟨by omega, by omega⟩]
    congr 1
    exact Fin.ext (Nat.add_sub_cancel_left ..)
  have hdirect : ∀ i : Fin 12, u32Le (rawInodeWrite b off n) (off + (16 + i * 4)) = n.direct i := by
    intro i
    rw [show off + (16 + i * 4) = off + (4 + i) * 4 by omega, u32Le_rawInodeWrite (by omega), RawInode.word,
      if_neg (by omega), if_neg (by omega), if_neg (by omega), dif_pos ⟨by omega, by omega⟩]
    congr 1
    exact Fin.ext (Nat.add_sub_cancel_left ..)
  have hreserved : ∀ i : Fin 14, u32Le (rawInodeWrite b off n) (off + (72 + i * 4)) = n.reserved i := by
    intro i
    rw [show off + (72 + i * 4) = off + (18 + i) * 4 by omega, u32Le_rawInodeWrite (by omega), RawInode.word,
      if_neg (by omega), if_neg (by omega), if_neg (by omega), dif_neg (by omega), if_neg (by omega), if_neg (by omega),
      dif_pos ⟨by omega, by omega⟩]
    congr 1
    exact Fin.ext (Nat.add_sub_cancel_left ..)
  have hword : ∀ k, 1 ≤ k ∧ k < 32 → u32Le (rawInodeWrite b off n) (off + k * 4) = n.word k :=
    fun _ => u32Le_rawInodeWrite
  unfold rawInodeRead
  rw [hitype, funext hpad, funext hdirect, funext hreserved, hword 1 (by omega), hword 2 (by omega), hword 3 (by omega),
    hword 16 (by omega), hword 17 (by omega)]
  rfl

/-- An inode is its 128 bytes. -/
theorem rawInodeRead_congr (h : ∀ i < inodeSize, b (off + i) = b' (off + i)) : rawInodeRead b off = rawInodeRead b' off := by
  have hword : ∀ o, o + 4 ≤ inodeSize → u32Le b (off + o) = u32Le b' (off + o) := fun o ho =>
    u32Le_congr fun i hi => by
      rw [Nat.add_assoc]
      exact h _ (by omega)
  have h0 := h 0 (by decide)
  rw [Nat.add_zero] at h0
  unfold rawInodeRead
  rw [h0, hword 4 (by decide), hword 8 (by decide), hword 12 (by decide), hword 64 (by decide), hword 68 (by decide)]
  have hpad : (fun i : Fin 3 => b (off + (1 + i))) = fun i : Fin 3 => b' (off + (1 + i)) :=
    funext fun i => h _ (by unfold inodeSize; omega)
  have hdirect : (fun i : Fin 12 => u32Le b (off + (16 + i * 4))) = fun i : Fin 12 => u32Le b' (off + (16 + i * 4)) :=
    funext fun i => hword _ (by unfold inodeSize; omega)
  have hreserved : (fun i : Fin 14 => u32Le b (off + (72 + i * 4))) = fun i : Fin 14 => u32Le b' (off + (72 + i * 4)) :=
    funext fun i => hword _ (by unfold inodeSize; omega)
  rw [hpad, hdirect, hreserved]

theorem rawInodeRead_write_of_disjoint (h : off' + inodeSize ≤ off ∨ off + inodeSize ≤ off') :
    rawInodeRead (rawInodeWrite b off n) off' = rawInodeRead b off' :=
  rawInodeRead_congr fun i hi => copyInto_out (by omega)

end

/-! ## Bitmaps -/

/-- The bits of a bitmap block. -/
def bitmapBits : Nat := 32768

/-- `buf[i / 8] & (1 << (i % 8)) != 0`. -/
def bitSet (b : Block) (i : Nat) : Bool := decide (b (i / 8) &&& (1#8 <<< (i % 8)) ≠ 0#8)

/-- `buf[i / 8] |= 1 << (i % 8)`, or `buf[i / 8] &= !(1 << (i % 8))`. -/
def putBit (b : Block) (i : Nat) (value : Bool) : Block :=
  update b (i / 8)
    (if value then b (i / 8) ||| (1#8 <<< (i % 8)) else b (i / 8) &&& ~~~(1#8 <<< (i % 8)))

theorem bitSet_eq (b : Block) (i : Nat) : bitSet b i = (b (i / 8)).getLsbD (i % 8) := by
  have hmask : ∀ (x : BitVec 8) (k : Nat), k < 8 → decide (x &&& (1#8 <<< k) ≠ 0#8) = x.getLsbD k := by
    intro x k hk
    have hx : (x &&& (1#8 <<< k) ≠ 0#8) ↔ x.getLsbD k = true := by
      rw [← not_iff_not, not_not]
      constructor
      · intro h hbit
        have hk' : (x &&& (1#8 <<< k)).getLsbD k = false := by
          rw [h]
          exact BitVec.getLsbD_zero
        rw [BitVec.getLsbD_and, hbit] at hk'
        simp [hk] at hk'
      · intro h
        apply BitVec.eq_of_getLsbD_eq
        intro j hj
        rcases Nat.lt_trichotomy j k with hjk | rfl | hjk
        · simp [hjk]
        · simp [h]
        · simp [show ¬(j - k = 0) by omega]
    rw [Bool.eq_iff_iff, decide_eq_true_iff]
    exact hx
  exact hmask _ _ (Nat.mod_lt _ (by decide))

/-- A bit changes alone. -/
theorem bitSet_putBit (b : Block) (i j : Nat) (value : Bool) :
    bitSet (putBit b i value) j = if j = i then value else bitSet b j := by
  have hj : j % 8 < 8 := Nat.mod_lt _ (by decide)
  rw [bitSet_eq, bitSet_eq]
  by_cases hbyte : j / 8 = i / 8
  · rw [putBit, hbyte, update_self]
    by_cases hji : j = i
    · subst hji
      cases value <;> simp [hj]
    · have hne : j % 8 ≠ i % 8 := fun h => hji (by omega)
      rw [if_neg hji]
      have hbit : (1#8 <<< (i % 8)).getLsbD (j % 8) = false := by
        rcases Nat.lt_or_gt_of_ne hne with h | h
        · simp [h]
        · simp [show ¬(j % 8 - i % 8 = 0) by omega]
      cases value with
      | true =>
        rw [if_pos rfl, BitVec.getLsbD_or, hbit, Bool.or_false]
      | false =>
        rw [if_neg Bool.false_ne_true, BitVec.getLsbD_and, BitVec.getLsbD_not, hbit]
        simp [hj]
  · rw [putBit, update_of_ne hbyte, if_neg fun h => hbyte (by rw [h])]

/-! ## Directory entries -/

/-- `as_bytes` of a name. -/
def nameBytes (name : String) : List (BitVec 8) := name.toByteArray.data.toList.map UInt8.toBitVec

/-- `core::str::from_utf8`. -/
def fromUtf8 (bytes : List (BitVec 8)) : Option String := String.fromUTF8? ⟨(bytes.map UInt8.ofBitVec).toArray⟩

theorem fromUtf8_nameBytes (name : String) : fromUtf8 (nameBytes name) = some name := by
  have hid : (UInt8.ofBitVec ∘ UInt8.toBitVec) = id := funext fun _ => rfl
  unfold fromUtf8 nameBytes
  rw [List.map_map, hid, List.map_id, String.fromUTF8?, dif_pos name.isValidUTF8]
  rfl

/-- `&buf[start..start + len]`. -/
def slice (b : Block) (start len : Nat) : List (BitVec 8) := (List.range len).map fun i => b (start + i)

/-- What `dirent_read` returns. -/
structure Dirent where
  inode : Nat
  nameLen : Nat
  etype : BitVec 8

/-- `dirent_read`. -/
def direntRead (b : Block) (off : Nat) : Dirent where
  inode := (u32Le b off).toNat
  nameLen := (b (off + 4)).toNat
  etype := b (off + 5)

/-- `dirent_write`. -/
def direntWrite (b : Block) (off ino : Nat) (name : List (BitVec 8)) (etype : BitVec 8) : Block :=
  let b := putU32 b off (BitVec.ofNat 32 ino)
  let b := update b (off + 4) (BitVec.ofNat 8 name.length)
  let b := update b (off + 5) etype
  copyInto b (off + 8) name.length fun i => name.getD i 0#8

/-- `dirent_clear`. -/
def direntClear (b : Block) (off : Nat) : Block := copyInto b off direntrySize fun _ => 0#8

end OpenV.Vfs
