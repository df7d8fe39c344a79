import OpenV.Lib.Run
import OpenV.Vfs.Volume

/- The inode cache. `invalidate` clears only the first entry with the key, while
   `read_inode` adds an entry whenever that first one is cleared, so copies of one inode
   pile up behind it. As long as no inode is written while a copy lies behind the first
   entry, `read_inode` returns what was last written. -/
namespace OpenV.Vfs

open Function InodeCache Cmd

/-! ## The first entry with a key -/

namespace InodeCache
variable {c : InodeCache} {ino : Nat} {j : Fin 32}

theorem first_some (h : c.first ino = some j) : (c.entries j).1 = ino := by
  have := List.find?_some h
  simpa using this

theorem get_eq_some {n : RawInode} (h : c.get ino = some n) :
    ∃ j, c.first ino = some j ∧ c.entries j = (ino, some n) := by
  obtain ⟨j, hj, hn⟩ := Option.bind_eq_some_iff.mp h
  exact ⟨j, hj, Prod.ext (first_some hj) hn⟩

/-- What is left of an inode's copies after `invalidate`. -/
theorem invalidate_live {n : RawInode} (h : ((c.invalidate ino).entries j).2 = some n) :
    c.entries j = (c.invalidate ino).entries j ∧ c.first ino ≠ some j := by
  unfold invalidate at h ⊢
  cases hf : c.first ino with
  | none =>
    exact ⟨rfl, nofun⟩
  | some i =>
    rw [hf] at h
    dsimp only at h ⊢
    by_cases hij : j = i
    · subst hij
      rw [update_self] at h
      cases h
    · rw [update_of_ne hij]
      exact ⟨rfl, fun h' => hij (Option.some.inj h').symm⟩

end InodeCache

/-! ## Runs -/

inductive InodeOp where
  | read (ino : Nat)
  | write (ino : Nat) (inode : RawInode)
  | free (ino : Nat)

open InodeOp

namespace InodeOp

def prog : InodeOp → FsProg Unit
  | read ino => do
    let _ ← readInode ino
    pure ()
  | write ino inode => do
    let _ ← writeInode ino inode
    pure ()
  | free ino => freeInode ino

def exec (op : InodeOp) : Cmd OfsState Unit := op.prog.run handle

/-- The inodes as last written, after one more operation. -/
def track (last : Nat → RawInode) : InodeOp → Nat → RawInode
  | write ino inode => if ino < maxInodes then update last ino inode else last
  | _ => last

/-- The cache has no copy of a written inode behind the first entry with its key. -/
def OneCopy (s : OfsState) : InodeOp → Prop
  | write ino _ => ∀ j n, s.cache.entries j = (ino, some n) → s.cache.first ino = some j
  | _ => True

end InodeOp

/-- The copies in the cache are the inodes of the table. -/
def OfsState.CacheAgrees (s : OfsState) : Prop :=
  ∀ j n, (s.cache.entries j).2 = some n → n = s.vol.inodeAt (s.cache.entries j).1

/-- The state follows the inodes as last written. -/
structure Tracks (s : OfsState) (last : Nat → RawInode) : Prop where
  sound : s.Sound
  cache : s.CacheAgrees
  table : ∀ ino < maxInodes, s.vol.inodeAt ino = last ino

section Steps
variable {s : OfsState} {last : Nat → RawInode} {ino : Nat} {n : RawInode}

theorem OfsState.CacheAgrees.get (h : s.CacheAgrees) (hget : s.cache.get ino = some n) : n = s.vol.inodeAt ino := by
  obtain ⟨j, _, hj⟩ := get_eq_some hget
  have := h j n (by rw [hj])
  rwa [hj] at this

theorem OfsState.CacheAgrees.insert (h : s.CacheAgrees) :
    OfsState.CacheAgrees { s with cache := s.cache.insert ino (s.vol.inodeAt ino) } := by
  intro j n hn
  by_cases hj : j = s.cache.nextSlot
  · subst hj
    simp only [InodeCache.insert, update_self] at hn ⊢
    exact (Option.some.inj hn).symm
  · simp only [InodeCache.insert, update_of_ne hj] at hn ⊢
    exact h j n hn

/-- A cached read agrees with the table. -/
theorem Tracks.read_value (h : Tracks s last) (hino : ino < maxInodes) :
    (OfsState.readInode ino s).1 = .ok (some (last ino)) := by
  rw [h.sound.readInode hino, ← h.table ino hino]
  cases hc : s.cache.get ino with
  | some n => rw [h.cache.get hc]
  | none => rfl

theorem Tracks.read (h : Tracks s last) (ino : Nat) : Tracks (OfsState.readInode ino s).2 last := by
  by_cases hino : ino < maxInodes
  · rw [h.sound.readInode hino]
    cases s.cache.get ino with
    | some n => exact h
    | none => exact ⟨h.sound.withCache _, h.cache.insert, h.table⟩
  · rw [OfsState.readInode_out (by omega)]
    exact h

theorem OfsState.Sound.writeInode (h : s.Sound) (hino : ino < maxInodes) (n : RawInode) :
    ∃ s', (writeInode ino n).run handle s = (.ok true, s') ∧ s'.Sound ∧ s'.vol = s.vol.putInode ino n ∧
      s'.cache = s.cache.invalidate ino := by
  have h' := h.withCache (s.cache.invalidate ino)
  have hw := h'.writeBlk (target_tableBlk hino)
    (rawInodeWrite (s.vol.blk (tableBlk ino)) (tableOff ino) n)
  refine ⟨_, ?_, hw.1, hw.2, rfl⟩
  rw [Vfs.writeInode, if_neg (by omega)]
  refine (bind_ok (show handle (.invalidate ino) s = _ from rfl)).trans ?_
  refine (bind_ok (show handle (.readBlk (tableBlk ino)) _ = _ from h'.readBlk _)).trans ?_
  have hview : (s.pending.lookup (tableBlk ino)).getD (s.dev.disk (tableBlk ino)) = s.vol.blk (tableBlk ino) := by
    show _ = s.view (tableBlk ino)
    rw [OfsState.view, if_pos (target_tableBlk hino).2.2]
  show ((Vfs.writeBlk _ (rawInodeWrite ((s.pending.lookup (tableBlk ino)).getD (s.dev.disk (tableBlk ino))) _ n)).run handle) _ = _
  rw [hview]
  rfl

/-- Where the written inode has no copy behind the first entry, none is left. -/
theorem Tracks.write (h : Tracks s last) (hone : (write ino n).OneCopy s) (hino : ino < maxInodes) {s' : OfsState}
    (hs' : s'.Sound) (hvol : s'.vol = s.vol.putInode ino n) (hcache : s'.cache = s.cache.invalidate ino) :
    Tracks s' (update last ino n) := by
  refine ⟨hs', fun j m hm => ?_, fun i hi => ?_⟩
  · rw [hcache] at hm ⊢
    obtain ⟨hsame, hfirst⟩ := invalidate_live hm
    rw [← hsame] at hm ⊢
    have hne : (s.cache.entries j).1 ≠ ino := fun hkey => hfirst (hone j m (Prod.ext hkey hm))
    rw [hvol, Vol.inodeAt_putInode_of_ne hne]
    exact h.cache j m hm
  · rw [hvol]
    by_cases hin : i = ino
    · subst hin
      rw [Vol.inodeAt_putInode_self, update_self]
    · rw [Vol.inodeAt_putInode_of_ne hin, update_of_ne hin]
      exact h.table i hi

theorem OfsState.Sound.freeInode_eq (h : s.Sound) (ino : Nat) : (freeInode ino).run handle s =
    Prog.run handle (if bitmapBits ≤ ino then panic "index out of bounds" else do
      let _ ← Vfs.writeBlk inodeBitmapBlk (putBit (s.vol.blk inodeBitmapBlk) ino false)
      pure ()) { s with cache := s.cache.invalidate ino } := by
  have h' := h.withCache (s.cache.invalidate ino)
  refine (bind_ok (show handle (.invalidate ino) s = _ from rfl)).trans ?_
  exact (bind_ok (show handle (.readBlk inodeBitmapBlk) _ = _ from h'.readBlk _)).trans rfl

/-- `free_inode` clears an entry and a bit. -/
theorem OfsState.Sound.freeInode (h : s.Sound) (hino : ino < bitmapBits) :
    ∃ s', (freeInode ino).run handle s = (.ok (), s') ∧ s'.Sound ∧
      s'.vol = s.vol.write inodeBitmapBlk (putBit (s.vol.blk inodeBitmapBlk) ino false) ∧
      s'.cache = s.cache.invalidate ino := by
  have h' := h.withCache (s.cache.invalidate ino)
  have hw := h'.writeBlk (show Target inodeBitmapBlk by decide) (putBit (s.vol.blk inodeBitmapBlk) ino false)
  rw [h.freeInode_eq, if_neg (by omega)]
  exact ⟨_, rfl, hw.1, hw.2, rfl⟩

theorem freeInode_panics (h : s.Sound) (hino : bitmapBits ≤ ino) :
    ∃ msg s', (freeInode ino).run handle s = (.panic msg, s') := by
  rw [h.freeInode_eq, if_pos hino]
  exact ⟨_, _, rfl⟩

theorem Tracks.free (h : Tracks s last) {s' : OfsState} (hs' : s'.Sound)
    (hvol : s'.vol = s.vol.write inodeBitmapBlk (putBit (s.vol.blk inodeBitmapBlk) ino false))
    (hcache : s'.cache = s.cache.invalidate ino) : Tracks s' last := by
  have htable : ∀ i, s'.vol.inodeAt i = s.vol.inodeAt i := fun i => by
    rw [hvol]
    refine Vol.inodeAt_write ?_
    unfold tableBlk inodeTableStart inodesPerBlock inodeBitmapBlk
    omega
  refine ⟨hs', fun j m hm => ?_, fun i hi => ?_⟩
  · rw [hcache] at hm ⊢
    have hsame := (invalidate_live hm).1
    rw [← hsame] at hm ⊢
    rw [htable]
    exact h.cache j m hm
  · rw [htable]
    exact h.table i hi

/-- One operation. -/
theorem Tracks.step (h : Tracks s last) (op : InodeOp) :
    op.exec.endsIn (fun s' => op.OneCopy s → Tracks s' (op.track last)) s := by
  cases op with
  | read ino =>
    have hread := h.read ino
    rcases hr : OfsState.readInode ino s with ⟨r, s'⟩
    rw [hr] at hread
    show (OfsState.readInode ino >>= fun _ => pure ()).wp _ _ _ s
    rw [Cmd.wp_bind, Cmd.wp_of_eq hr]
    cases r with
    | ok r => exact (Cmd.wp_pure ()).mpr fun _ => hread
    | err e => exact fun _ => hread
    | panic e => trivial
  | write ino n =>
    by_cases hino : ino < maxInodes
    · obtain ⟨s', hrun, hs', hvol, hcache⟩ := h.sound.writeInode hino n
      have hexec : (InodeOp.write ino n).exec s = (.ok (), s') := by
        unfold InodeOp.exec InodeOp.prog
        rw [Prog.run_bind]
        exact Cmd.bind_ok hrun
      refine Cmd.wp_of_ok hexec fun hone => ?_
      show Tracks s' (if ino < maxInodes then update last ino n else last)
      rw [if_pos hino]
      exact h.write hone hino hs' hvol hcache
    · have hexec : (InodeOp.write ino n).exec s = (.ok (), s) := by
        show Prog.run handle (writeInode ino n >>= fun _ => pure ()) s = _
        rw [writeInode_out (by omega)]
        rfl
      refine Cmd.wp_of_ok hexec fun _ => ?_
      show Tracks s (if ino < maxInodes then update last ino n else last)
      rw [if_neg hino]
      exact h
  | free ino =>
    by_cases hino : ino < bitmapBits
    · obtain ⟨s', hrun, hs', hvol, hcache⟩ := h.sound.freeInode hino
      exact Cmd.wp_of_ok hrun fun _ => h.free hs' hvol hcache
    · obtain ⟨msg, s', hrun⟩ := freeInode_panics h.sound (show bitmapBits ≤ ino by omega)
      exact (Cmd.endsIn_of_eq hrun).mpr trivial

end Steps

/-- A volume of zeros with an idle journal. -/
def blankVolume : OfsState where
  dev := { disk := fun b => if b = journalHdrBlk then Ofs.clearHeader else zeroBlock }
  totalBlocks := 2048

theorem blankVolume_sound : blankVolume.Sound :=
  ⟨rfl, rfl, List.Pairwise.nil, nofun, Ofs.acceptHeader_clear⟩

/-- An inode is written twice, each time after a read; then enough others are read to push its first entry out. -/
def staleOps : List InodeOp :=
  [.read 1, .write 1 { size := 1#32 }, .read 1, .write 1 { size := 2#32 }] ++ (List.range' 2 31).map .read

end OpenV.Vfs
