import OpenV.Lib.Run
import OpenV.Vfs.Files
import OpenV.Vfs.Mkfs

/- Files as byte arrays: after any writes without gaps, `file_read` returns the bytes of
   the array that the same writes leave, and a write to one file is not seen in another. -/
namespace OpenV.Vfs

/-- An array with `data` written over it at an offset. -/
def Bytes.overwrite (f : Bytes) (off : Nat) (data : Bytes) : Bytes where
  len := max f.len (off + data.len)
  get := fun i => if off ≤ i ∧ i < off + data.len then data.get (i - off) else f.get i

/-- The file has the bytes of the array. -/
structure Vol.Holds (v : Vol) (ino : Nat) (f : Bytes) : Prop where
  ino_lt : ino < maxInodes
  file : (v.inodeAt ino).isFile
  size : (v.inodeAt ino).size.toNat = f.len
  bytes : ∀ pos < f.len, v.byte ino pos = some (f.get pos)

section
variable {v v' : Vol} {ino ino' off : Nat} {data f : Bytes}

/-- All blocks of a file without gaps are there, so the file is smaller than the volume. -/
theorem Vol.Owned.dense_lt (h : v.Owned) (hino : ino < maxInodes) {m : Nat} (hm : ∀ pos < m, v.byte ino pos ≠ none) :
    m < 2 ^ 32 := by
  have hblocks : ∀ idx < divCeil m blockSize, v.fileBlock (v.inodeAt ino) idx ≠ none := by
    intro idx hidx hnone
    refine hm (idx * blockSize) ?_ ?_
    · unfold divCeil blockSize at hidx
      unfold blockSize
      omega
    · rw [Vol.byte, Nat.mul_div_cancel _ (by decide), hnone]
      rfl
  have := h.blocks_le hino hblocks
  unfold divCeil blockSize bitmapBits at this
  omega

/-- A write that leaves no gap writes the array. -/
theorem Written.holds (hw : Written ino off data v v') (h' : v'.Owned) (hf : v.Holds ino f) (hgap : off ≤ f.len) :
    v'.Holds ino (f.overwrite off data) := by
  have hbytes : ∀ pos < max f.len (off + data.len), v'.byte ino pos = some ((f.overwrite off data).get pos) := by
    intro pos hpos
    simp only [Bytes.overwrite]
    by_cases hin : off ≤ pos ∧ pos < off + data.len
    · obtain ⟨i, rfl⟩ : ∃ i, pos = off + i := ⟨pos - off, by omega⟩
      rw [if_pos hin, hw.written i (by omega), Nat.add_sub_cancel_left]
    · rw [if_neg hin]
      exact hw.kept pos _ (by omega) (hf.bytes pos (by omega))
  have hlt : off + data.len < 2 ^ 32 := h'.dense_lt hf.ino_lt fun pos hpos => by
    rw [hbytes pos (by omega)]
    exact Option.some_ne_none _
  refine ⟨hf.ino_lt, ?_, ?_, hbytes⟩
  · have hfile := hf.file
    unfold RawInode.isFile at hfile ⊢
    rw [hw.itype]
    exact hfile
  · show _ = max f.len (off + data.len)
    rw [hw.size, hf.size]
    split_ifs with hs
    · rw [Nat.mod_eq_of_lt hlt]
      omega
    · omega

theorem Written.holds_other (hw : Written ino off data v v') (hne : ino' ≠ ino) (hf : v.Holds ino' f) : v'.Holds ino' f := by
  have hi := hw.inodes ino' hf.ino_lt hne
  refine ⟨hf.ino_lt, ?_, ?_, fun pos hpos => ?_⟩
  · rw [hi]
    exact hf.file
  · rw [hi]
    exact hf.size
  · rw [hw.others ino' hf.ino_lt hne]
    exact hf.bytes pos hpos

end

/-! ## Reads return -/

/-- The request reads. -/
def Request.Reads : Request → Prop
  | readBlk _ => True
  | readInode _ => True
  | _ => False

theorem handle_reads (q : Request) (s : OfsState) (hq : q.Reads) (h : s.Sound) :
    ∃ r s', handle q s = (.ok r, s') ∧ s'.Sound := by
  cases q with
  | readBlk b => exact ⟨_, s, h.readBlk b, h⟩
  | readInode ino =>
    by_cases hino : ino < maxInodes
    · have hr := h.readInode hino
      cases hc : s.cache.get ino with
      | some n =>
        rw [hc] at hr
        exact ⟨_, _, hr, h⟩
      | none =>
        rw [hc] at hr
        exact ⟨_, _, hr, h.withCache _⟩
    · exact ⟨none, s, OfsState.readInode_out (by omega), h⟩
  | _ => exact hq.elim

section Requests
variable {C : Request → Prop} {ino : Nat}

theorem within_fileReadLoop (hread : ∀ b, C (.readBlk b)) (off toRead fuel : Nat) :
    ∀ (done : Nat) (n : RawInode) (out : Nat → BitVec 8), (fileReadLoop ino off toRead fuel done n out).Within C := by
  induction fuel with
  | zero => exact fun _ _ _ => .pure _
  | succ fuel ih =>
    intro done n out
    refine .ite (fun _ => ?_) fun _ => .pure _
    refine .bind (within_getFileBlock hread (by nofun) _) fun res => ?_
    obtain ⟨_ | blk, n⟩ := res
    · exact .pure _
    · exact .bindSome (.request (hread blk)) fun buf => ih ..

theorem reads_fileRead (ino off : Nat) (buf : Bytes) : (fileRead ino off buf).Within Request.Reads := by
  refine .bindSome (.request trivial) fun inode => ?_
  refine .early fun _ => .early fun _ => ?_
  refine .bind (within_fileReadLoop (fun _ => trivial) ..) fun r => ?_
  cases r <;> exact .pure _

theorem plain_fileWriteLoop (off : Nat) (data : Bytes) (fuel : Nat) :
    ∀ (done : Nat) (n : RawInode), (fileWriteLoop ino off data fuel done n).Within Request.Plain := by
  induction fuel with
  | zero => exact fun _ _ => .pure _
  | succ fuel ih =>
    intro done n
    rw [fileWriteLoop]
    refine .ite (fun _ => ?_) fun _ => .pure _
    refine .bind (within_getFileBlock (fun _ => trivial) (fun _ _ h => h) _) fun res => ?_
    obtain ⟨_ | blk, n⟩ := res
    · exact .pure _
    · have hread : (readBlk blk).Within Request.Plain := .request trivial
      dsimp only
      refine .ite (fun _ => .bindSome hread fun buf => ?_) fun _ => .bindSome (.pure _) fun buf => ?_
      all_goals exact .bind (.request trivial) fun _ => .ite (fun _ => ih ..) fun _ => .pure _

/-- `file_write` reads one inode, at its start. -/
theorem fileWrite_fresh {s : OfsState} {off : Nat} {data : Bytes} (h : Fresh (.readInode ino) s) :
    (fileWrite ino off data).Meets handle Fresh s := by
  refine Prog.meets_ask h fun r s' => Prog.Within.meets fresh_of_plain ?_ s'
  cases r with
  | none => exact .pure _
  | some n =>
    refine .early fun _ => .bind (plain_fileWriteLoop ..) fun r => ?_
    cases r with
    | error e => exact .pure _
    | ok n =>
      refine .bind ?_ fun _ => .bind (.request trivial) fun _ => .pure _
      exact .ite (fun _ => .bind (within_writeInode (fun _ h => h) ..) fun _ => .pure _) fun _ => .pure _

/-- `file_read` reads one inode, at its start. -/
theorem fileRead_fresh {s : OfsState} {off : Nat} {buf : Bytes} (h : Fresh (.readInode ino) s) :
    (fileRead ino off buf).Meets handle Fresh s := by
  refine Prog.meets_ask h fun r s' => Prog.Within.meets fresh_of_plain ?_ s'
  cases r with
  | none => exact .pure _
  | some n =>
    refine .early fun _ => .early fun _ => ?_
    refine .bind (within_fileReadLoop (fun _ => trivial) ..) fun r => ?_
    cases r <;> exact .pure _

end Requests

/-- `file_read` of a file that has the bytes of an array. -/
theorem Vol.Holds.read {s : OfsState} {ino : Nat} {f : Bytes} (hf : s.vol.Holds ino f) (hs : s.Sound) (hown : s.vol.Owned)
    (off : Nat) (buf : Bytes) (hfresh : (fileRead ino off buf).Meets handle Fresh s) :
    ∃ out : Bytes, ((fileRead ino off buf).run handle s).1 = .ok (.ok out) ∧ out.len = min (f.len - off) buf.len ∧
      ∀ i < out.len, out.get i = f.get (off + i) := by
  obtain ⟨r, s', hrun, _⟩ := Prog.run_returns handle_reads (reads_fileRead ino off buf) hs
  have hw := run_volume hs (ensures_fileRead hown hf.ino_lt hf.file buf fun i hi => by
    rw [hf.size] at hi
    rw [hf.bytes (off + i) (by omega)]
    exact Option.some_ne_none _) hfresh
  rw [Cmd.wp_of_eq hrun] at hw
  obtain ⟨_, _, out, rfl, hlen, hout⟩ := hw
  rw [hf.size] at hlen
  refine ⟨out, by rw [hrun], hlen, fun i hi => ?_⟩
  have hb := hout i hi
  rw [hf.bytes (off + i) (by omega)] at hb
  exact (Option.some.inj hb).symm

/-! ## Runs -/

/-- A call of `file_write`. -/
structure WriteOp where
  ino : Nat
  off : Nat
  data : Bytes

open WriteOp

namespace WriteOp

def prog (op : WriteOp) : FsProg (Except FsError Nat) := fileWrite op.ino op.off op.data

def exec (op : WriteOp) : Cmd OfsState Unit := op.prog.run handle >>= fun _ => pure ()

/-- The arrays of the files that have one, after a write. -/
def apply (files : Nat → Option Bytes) (op : WriteOp) : Nat → Option Bytes :=
  Function.update files op.ino ((files op.ino).map (·.overwrite op.off op.data))

/-- The write succeeds and leaves no gap, and `read_inode` returns the inode last written. -/
structure Good (op : WriteOp) (s : OfsState) : Prop where
  fresh : op.prog.Meets handle Fresh s
  succeeds : ∃ n, (op.prog.run handle s).1 = .ok (.ok n)
  noGap : op.off ≤ (s.vol.inodeAt op.ino).size.toNat

end WriteOp

/-- The state of the volume follows the arrays. -/
structure Flat (s : OfsState) (files : Nat → Option Bytes) : Prop where
  sound : s.Sound
  owned : s.vol.Owned
  holds : ∀ ino f, files ino = some f → s.vol.Holds ino f

theorem Flat.step {s : OfsState} {files : Nat → Option Bytes} (h : Flat s files) (op : WriteOp) :
    op.exec.endsIn (fun s' => op.Good s → Flat s' (op.apply files)) s := by
  by_cases hgood : op.Good s
  · obtain ⟨hfresh, ⟨n, hn⟩, hgap⟩ := hgood
    have hsize := (s.vol.inodeAt op.ino).size.isLt
    have hw := run_volume h.sound (ensures_fileWrite h.owned (by omega)) hfresh
    rcases hrun : op.prog.run handle s with ⟨r, s'⟩
    rw [hrun] at hn
    cases hn
    rw [Cmd.wp_of_eq (show (fileWrite op.ino op.off op.data).run handle s = _ from hrun)] at hw
    obtain ⟨hs', hown', hres⟩ := hw
    obtain ⟨_, hwritten⟩ := hres n rfl
    unfold exec
    refine Cmd.wp_of_ok (Cmd.bind_ok hrun) fun _ => ⟨hs', hown', fun ino f hf => ?_⟩
    unfold apply at hf
    by_cases hi : ino = op.ino
    · subst hi
      rw [Function.update_self] at hf
      obtain ⟨g, hg, rfl⟩ := Option.map_eq_some_iff.mp hf
      have hold := h.holds op.ino g hg
      refine hwritten.holds hown' hold ?_
      rw [← hold.size]
      exact hgap
    · rw [Function.update_of_ne hi] at hf
      exact hwritten.holds_other hi (h.holds ino f hf)
  · exact Cmd.endsIn_mono (Cmd.wp_true _ s) fun _ _ hg => absurd hg hgood

/-- After any successful writes without gaps, to any files, a read of any range of a file returns the bytes of its
array. -/
theorem file_read_flat {s₀ s : OfsState} {files : Nat → Option Bytes} {ops : List WriteOp} (h₀ : s₀.Sound)
    (hown : s₀.vol.Owned) (hfiles : ∀ ino f, files ino = some f → s₀.vol.Holds ino f)
    (hrun : runAll exec ops s₀ = some s) (hgood : Along exec (fun op s _ => op.Good s) ops s₀)
    {ino : Nat} {f : Bytes} (hf : ops.foldl apply files ino = some f) (off : Nat) (buf : Bytes)
    (hfresh : (fileRead ino off buf).Meets handle Fresh s) :
    ∃ out : Bytes, ((fileRead ino off buf).run handle s).1 = .ok (.ok out) ∧ out.len = min (f.len - off) buf.len ∧
      ∀ i < out.len, out.get i = f.get (off + i) := by
  have hflat := runAll_sim Flat (fun op s files h => h.step op) ⟨h₀, hown, hfiles⟩ hrun hgood
  exact (hflat.holds ino f hf).read hflat.sound hflat.owned off buf hfresh

/-- A byte is written to an empty file and read back. -/
theorem file_read_flat_byte : ∃ out : Bytes, ((fileRead 1 0 { len := 8, get := fun _ => 0#8 }).run handle
      ((mk 1 0 { len := 1, get := fun _ => 7#8 }).exec oneFile).2).1 = .ok (.ok out) ∧ out.len = 1 ∧
      out.get 0 = 7#8 := by
  obtain ⟨hs, hown, hnode⟩ := oneFile_spec
  let op : WriteOp := ⟨1, 0, { len := 1, get := fun _ => 7#8 }⟩
  have hempty : oneFile.vol.Holds 1 { len := 0, get := fun _ => 0#8 } := by
    refine ⟨by decide, ?_, ?_, nofun⟩
    · rw [hnode]
      exact .inl rfl
    · rw [hnode]
      rfl
  have hfiles : ∀ ino f, (fun i => if i = 1 then some { len := 0, get := fun _ => 0#8 } else none) ino = some f →
      oneFile.vol.Holds ino f := fun ino f hf => by
    dsimp only at hf
    split_ifs at hf with hi
    · cases hf
      rw [hi]
      exact hempty
  have hgood : op.Good oneFile := by
    refine ⟨fileWrite_fresh (fresh_of_uncached hs ?_), ⟨1, ?_⟩, Nat.zero_le _⟩
    · exact Option.isNone_iff_eq_none.mp (by decide +kernel)
    · decide +kernel
  have hexec : op.exec oneFile = (.ok (), (op.exec oneFile).2) := Cmd.eq_of_fst (by decide +kernel)
  have hrun : runAll exec [op] oneFile = some (op.exec oneFile).2 := runAll_cons hexec
  have halong : Along exec (fun op s _ => op.Good s) [op] oneFile := (along_cons hexec).mpr ⟨hgood, trivial⟩
  have hafter := runAll_sim Flat (fun op s files h => h.step op) ⟨hs, hown, hfiles⟩ hrun halong
  have hf : [op].foldl apply (fun i => if i = 1 then some { len := 0, get := fun _ => 0#8 } else none) 1 =
      some (Bytes.overwrite { len := 0, get := fun _ => 0#8 } 0 op.data) := rfl
  obtain ⟨out, hout, hlen, hget⟩ := file_read_flat hs hown hfiles hrun halong hf 0 { len := 8, get := fun _ => 0#8 }
    (fileRead_fresh (fresh_of_uncached hafter.sound (Option.isNone_iff_eq_none.mp (by decide +kernel))))
  refine ⟨out, hout, hlen, ?_⟩
  rw [hget 0 (by rw [hlen]; decide)]
  rfl

end OpenV.Vfs
