import OpenV.Vfs.Ofs

/- The volume that the methods of `OfsState` work on: the blocks as reads return them,
   with the pending transaction on top of the disk and without journal and cache.
   `volume` is the contract of the lowest level over that view. `handle_volume` says
   that on a sound state over a working device every request keeps the contract, where
   `read_inode` returns the inode last written. -/
namespace OpenV.Vfs

open Cmd Function Ofs OfsState Prog List

/-- The block can be part of a transaction. -/
def Target (b : Nat) : Prop := b ≠ 0 ∧ b < 2 ^ 32 ∧ Ofs.Data b

instance (b : Nat) : Decidable (Ofs.Data b) := inferInstanceAs (Decidable (_ ∨ _))
instance (b : Nat) : Decidable (Target b) := inferInstanceAs (Decidable (_ ∧ _))

theorem target_of_lt {b : Nat} (h0 : 0 < b) (h : b < journalHdrBlk) : Target b := by
  unfold journalHdrBlk at h
  exact ⟨by omega, by omega, .inl h⟩

theorem target_of_dataStart_le {b : Nat} (h : dataStart ≤ b) (hb : b < 2 ^ 32) : Target b := by
  unfold dataStart at h
  exact ⟨by omega, hb, .inr h⟩

theorem target_tableBlk {ino : Nat} (h : ino < maxInodes) : Target (tableBlk ino) := by
  refine target_of_lt ?_ ?_ <;> unfold tableBlk inodeTableStart inodesPerBlock
  · omega
  · unfold journalHdrBlk
    unfold maxInodes at h
    omega

/-! ## The view -/

/-- A volume: its size and the blocks outside the journal. -/
structure Vol where
  total : Nat
  blk : Nat → Block

namespace Vol
variable {v : Vol} {b b' ino ino' : Nat} {d : Block} {n : RawInode}

def write (v : Vol) (b : Nat) (d : Block) : Vol := { v with blk := update v.blk b d }

/-- An inode as the table has it. -/
def inodeAt (v : Vol) (ino : Nat) : RawInode := rawInodeRead (v.blk (tableBlk ino)) (tableOff ino)

def putInode (v : Vol) (ino : Nat) (n : RawInode) : Vol :=
  v.write (tableBlk ino) (rawInodeWrite (v.blk (tableBlk ino)) (tableOff ino) n)

@[simp] theorem write_self : (v.write b d).blk b = d := update_self ..
theorem write_of_ne (h : b' ≠ b) : (v.write b d).blk b' = v.blk b' := update_of_ne h ..
theorem putInode_of_ne (h : b ≠ tableBlk ino) : (v.putInode ino n).blk b = v.blk b := write_of_ne h

theorem inodeAt_write (h : tableBlk ino ≠ b) : (v.write b d).inodeAt ino = v.inodeAt ino := by
  rw [inodeAt, write_of_ne h, inodeAt]

@[simp] theorem inodeAt_putInode_self : (v.putInode ino n).inodeAt ino = n := by
  rw [inodeAt, putInode, write_self, rawInodeRead_write]

theorem inodeAt_putInode_of_ne (h : ino' ≠ ino) : (v.putInode ino n).inodeAt ino' = v.inodeAt ino' := by
  by_cases hblk : tableBlk ino' = tableBlk ino
  · -- the same block, at another offset
    have hoff : tableOff ino' + inodeSize ≤ tableOff ino ∨ tableOff ino + inodeSize ≤ tableOff ino' := by
      unfold tableBlk inodesPerBlock at hblk
      unfold tableOff inodesPerBlock inodeSize
      omega
    rw [inodeAt, putInode, hblk, write_self, rawInodeRead_write_of_disjoint hoff, inodeAt, hblk]
  · exact inodeAt_write hblk

end Vol

namespace OfsState

/-- The blocks outside the journal as `read_blk` returns them. -/
def view (s : OfsState) (b : Nat) : Block :=
  if Ofs.Data b then (s.pending.lookup b).getD (s.dev.disk b) else zeroBlock

def vol (s : OfsState) : Vol := { total := s.totalBlocks, blk := s.view }

/-- The machine is up, the device works, the journal is idle and the transaction could be committed if it fits. -/
structure Sound (s : OfsState) : Prop where
  works : s.dev.faulty = false
  up : s.dev.left = none
  sorted : s.pending.Pairwise (·.1 < ·.1)
  targets : ∀ e ∈ s.pending, Target e.1
  idle : acceptHeader (s.dev.disk journalHdrBlk) = none

end OfsState

/-! ## The pending transaction -/

section Pending
variable {l : List (Nat × Block)} {b k : Nat} {d : Block}

theorem mem_insertPending {e : Nat × Block} (h : e ∈ insertPending b d l) : e = (b, d) ∨ e ∈ l := by
  induction l with
  | nil => exact .inl (mem_singleton.mp h)
  | cons x l ih =>
    obtain ⟨k, v⟩ := x
    unfold insertPending at h
    split_ifs at h with h1 h2
    · exact mem_cons.mp h
    · exact (mem_cons.mp h).imp_right (mem_cons_of_mem _)
    · rcases mem_cons.mp h with rfl | h
      · exact .inr (.head _)
      · exact (ih h).imp_right (mem_cons_of_mem _)

theorem sorted_insertPending (h : l.Pairwise (·.1 < ·.1)) : (insertPending b d l).Pairwise (·.1 < ·.1) := by
  induction l with
  | nil => exact pairwise_singleton ..
  | cons x l ih =>
    obtain ⟨k, v⟩ := x
    obtain ⟨hx, hl⟩ := pairwise_cons.mp h
    unfold insertPending
    split_ifs with h1 h2
    · refine pairwise_cons.mpr ⟨fun e he => ?_, h⟩
      rcases mem_cons.mp he with rfl | he
      · exact h1
      · exact Nat.lt_trans h1 (hx e he)
    · subst h2
      exact pairwise_cons.mpr ⟨hx, hl⟩
    · refine pairwise_cons.mpr ⟨fun e he => ?_, ih hl⟩
      rcases mem_insertPending he with rfl | he
      · omega
      · exact hx e he

theorem lookup_insertPending : (insertPending b d l).lookup k = if k = b then some d else l.lookup k := by
  induction l with
  | nil =>
    rw [insertPending, lookup_cons]
    by_cases h : k = b
    · simp [h]
    · have hne : (k == b) = false := by simpa using h
      rw [hne, if_neg h]
  | cons x l ih =>
    obtain ⟨k', v⟩ := x
    unfold insertPending
    split_ifs with h1 h2 h3 h4 h5
    · simp [h2]
    · have hne : (k == b) = false := by simpa using h2
      rw [lookup_cons, hne]
    · simp [h4]
    · have hne : (k == b) = false := by simpa using h4
      have hne' : (k == k') = false := by
        rw [← h3]
        exact hne
      rw [lookup_cons, hne, lookup_cons, hne']
    · have hne : (k == k') = false := by
        simp only [beq_eq_false_iff_ne]
        omega
      rw [lookup_cons, hne]
      simpa [h5] using ih
    · rw [lookup_cons, lookup_cons, ih, if_neg h5]

/-- The disk under a sorted transaction, block by block. -/
theorem applyWrites_sorted (h : l.Pairwise (·.1 < ·.1)) (disk : Nat → Block) :
    applyWrites l disk b = (l.lookup b).getD (disk b) := by
  have hnd : (l.map (·.1)).Nodup := by
    rw [nodup_iff_pairwise_ne, pairwise_map]
    exact h.imp Nat.ne_of_lt
  cases hl : l.lookup b with
  | some d =>
    obtain ⟨l1, l2, rfl, _⟩ := lookup_eq_some_iff.mp hl
    exact applyWrites_of_mem hnd (mem_append_right _ (.head _))
  | none =>
    refine applyWrites_of_notMem fun hm => ?_
    obtain ⟨e, he, rfl⟩ := mem_map.mp hm
    have := lookup_eq_none_iff.mp hl e he
    simp at this

end Pending

/-! ## Commit on a working device -/

namespace Ofs
variable {s : Ofs} {ws : List (Nat × Block)}

/-- The state after some writes. -/
def written (s : Ofs) (ws : List (Nat × Block)) : Ofs :=
  { s with dev := { s.dev with disk := applyWrites ws s.dev.disk } }

theorem writeBlock_up (hok : s.dev.faulty = false) (hup : s.dev.left = none) (b : Nat) (d : Block) :
    writeBlock b d s = (.ok true, s.written [(b, d)]) := by
  rcases s with ⟨⟨disk, left, faulty⟩, pending⟩
  cases hok
  cases hup
  rfl

theorem writeAll_up (ws : List (Nat × Block)) : ∀ {s : Ofs}, s.dev.faulty = false → s.dev.left = none →
    writeAll ws s = (.ok true, s.written ws) := by
  induction ws with
  | nil => exact fun _ _ => rfl
  | cons w ws ih =>
    intro s hok hup
    obtain ⟨b, d⟩ := w
    have hstep : writeAll ((b, d) :: ws) s = Cmd.bind (writeBlock b d) (fun ok => if ok then writeAll ws else pure false) s :=
      rfl
    rw [hstep, Cmd.bind, writeBlock_up hok hup]
    exact ih hok hup

theorem commitPhases_up (hok : s.dev.faulty = false) (hup : s.dev.left = none) (entries : List (Nat × Block)) :
    commitPhases entries s = (.ok true, { s.written (txnWrites entries) with pending := [] }) := by
  refine (bind_ok (writeAll_up _ hok hup)).trans ?_
  refine (bind_ok (writeBlock_up (s := s.written _) hok hup _ _)).trans ?_
  refine (bind_ok (writeBlock_up (s := (s.written _).written _) hok hup _ _)).trans ?_
  refine (bind_ok (writeAll_up _ (s := ((s.written _).written _).written _) hok hup)).trans ?_
  refine (bind_ok (writeBlock_up (s := (((s.written _).written _).written _).written _) hok hup _ _)).trans ?_
  simp only [written, txnWrites, applyWrites_append]
  rfl

/-- A transaction that fits is written. -/
theorem commitTxn_fits (hok : s.dev.faulty = false) (hup : s.dev.left = none) (hpos : s.pending ≠ [])
    (hlen : s.pending.length ≤ journalSlots) :
    commitTxn s = (.ok true, { s.written (txnWrites s.pending) with pending := [] }) := by
  rw [← commitPhases_up hok hup, commitTxn, bind_get, if_neg (by simpa using hpos), if_neg (by omega)]

/-- Any other is left as it is. -/
theorem commitTxn_idle (h : s.pending = [] ∨ journalSlots < s.pending.length) :
    commitTxn s = (.ok s.pending.isEmpty, s) := by
  rw [commitTxn, bind_get]
  rcases h with h | h
  · rw [h]
    rfl
  · have hne : s.pending ≠ [] := fun h' => by
      rw [h'] at h
      cases h
    have hempty : s.pending.isEmpty = false := by simpa using hne
    rw [hempty, if_pos h]
    rfl

theorem written_txn (entries : List (Nat × Block)) :
    (s.written (txnWrites entries)).dev.disk = afterClear s.dev.disk entries := by
  simp only [written, txnWrites, applyWrites_append]
  rfl

end Ofs

/-! ## The contract -/

/-- What a request may return and do, by the blocks of the volume. -/
def volume : Prog.Contract Request Request.Answer Vol where
  pre
    | .writeBlk b _, _ => Target b
    | _, _ => True
  post
    | .readBlk b, v, r, v' => v' = v ∧ (Ofs.Data b → r = some (v.blk b))
    | .writeBlk b d, v, r, v' => v' = v.write b d ∧ r = true
    | .readInode ino, v, r, v' => v' = v ∧ r = if ino < maxInodes then some (v.inodeAt ino) else none
    | .invalidate _, v, _, v' => v' = v
    | .commitTxn, v, _, v' => v' = v
    | .totalBlocks, v, r, v' => v' = v ∧ r = v.total
    | .panic _, _, _, _ => False

/-- `read_inode` returns the inode last written. -/
def Fresh : Request → OfsState → Prop
  | .readInode ino, s => ino < maxInodes → (OfsState.readInode ino s).1 = .ok (some (s.vol.inodeAt ino))
  | _, _ => True

namespace OfsState
variable {s : OfsState}

theorem Sound.txn (h : s.Sound) (hpos : s.pending ≠ []) (hlen : s.pending.length ≤ journalSlots) : Ofs.Txn s.pending := by
  refine ⟨hpos, hlen, ?_, fun e he => (h.targets e he).2.1, fun e he => (h.targets e he).1,
    fun e he => (h.targets e he).2.2⟩
  rw [nodup_iff_pairwise_ne, pairwise_map]
  exact h.sorted.imp Nat.ne_of_lt

/-- The state with the transaction on disk. -/
def committed (s : OfsState) : OfsState :=
  { s with dev := { s.dev with disk := afterClear s.dev.disk s.pending }, pending := [] }

theorem Sound.committed_disk (h : s.Sound) (hpos : s.pending ≠ []) (hlen : s.pending.length ≤ journalSlots) {b : Nat}
    (hb : Ofs.Data b) : s.committed.dev.disk b = s.view b := by
  have htxn := h.txn hpos hlen
  show afterClear s.dev.disk s.pending b = _
  rw [afterClear, update_of_ne hb.ne_header, apply_afterCommit htxn hb, applyWrites_sorted h.sorted, view, if_pos hb]

theorem Sound.committed (h : s.Sound) (hpos : s.pending ≠ []) (hlen : s.pending.length ≤ journalSlots) :
    s.committed.Sound ∧ s.committed.vol = s.vol := by
  refine ⟨⟨h.works, h.up, List.Pairwise.nil, nofun, ?_⟩, ?_⟩
  · exact (afterClear_settled (h.txn hpos hlen) s.dev.disk).idle
  · have hview : s.committed.view = s.view := by
      funext b
      by_cases hb : Ofs.Data b
      · rw [view, if_pos hb, show s.committed.pending.lookup b = none from rfl, Option.getD_none,
          h.committed_disk hpos hlen hb]
      · rw [view, if_neg hb, view, if_neg hb]
    rw [vol, hview]
    rfl

/-- What a commit on a sound state does. -/
theorem Sound.commitTxn (h : s.Sound) :
    (s.pending ≠ [] ∧ s.pending.length ≤ journalSlots ∧ handle .commitTxn s = (.ok true, s.committed)) ∨
    ((s.pending = [] ∨ journalSlots < s.pending.length) ∧ handle .commitTxn s = (.ok s.pending.isEmpty, s)) := by
  have hzoom : handle .commitTxn s = ((Ofs.commitTxn s.toOfs).1, { s with toOfs := (Ofs.commitTxn s.toOfs).2 }) := rfl
  by_cases hidle : s.pending = [] ∨ journalSlots < s.pending.length
  · refine .inr ⟨hidle, ?_⟩
    rw [hzoom, commitTxn_idle hidle]
    rfl
  · obtain ⟨hpos, hlen⟩ := not_or.mp hidle
    refine .inl ⟨hpos, by omega, ?_⟩
    rw [hzoom, commitTxn_fits h.works h.up hpos (by omega)]
    unfold OfsState.committed
    rw [← written_txn]
    rfl

theorem Sound.readBlk (h : s.Sound) (b : Nat) :
    OfsState.readBlk b s = (.ok (some ((s.pending.lookup b).getD (s.dev.disk b))), s) := by
  rw [OfsState.readBlk, Cmd.bind_get]
  cases hl : s.pending.lookup b with
  | some d => rfl
  | none =>
    show (Res.ok (if s.dev.faulty then none else some (s.dev.disk b)), s) = _
    rw [h.works]
    rfl

theorem Sound.writeBlk (h : s.Sound) {b : Nat} (hb : Target b) (d : Block) :
    let s' := { s with pending := insertPending b d s.pending }
    OfsState.Sound s' ∧ vol s' = s.vol.write b d := by
  refine ⟨⟨h.works, h.up, sorted_insertPending h.sorted, fun e he => ?_, h.idle⟩, ?_⟩
  · rcases mem_insertPending he with rfl | he
    · exact hb
    · exact h.targets e he
  · have hview : view { s with pending := insertPending b d s.pending } = update s.view b d := by
      funext k
      rw [update_apply]
      unfold view
      rw [lookup_insertPending]
      split_ifs with hk hkb hkb'
      · rfl
      · rfl
      · exact absurd (hkb' ▸ hb.2.2) hk
      · rfl
    rw [vol, hview]
    rfl

/-- The cache can change freely. -/
theorem Sound.withCache (h : s.Sound) (c : InodeCache) : ({ s with cache := c } : OfsState).Sound :=
  ⟨h.works, h.up, h.sorted, h.targets, h.idle⟩

/-- `read_inode` returns the copy in the cache or else the inode of the table, which it keeps. -/
theorem Sound.readInode (h : s.Sound) {ino : Nat} (hino : ino < maxInodes) : OfsState.readInode ino s =
    match s.cache.get ino with
    | some n => (.ok (some n), s)
    | none => (.ok (some (s.vol.inodeAt ino)), { s with cache := s.cache.insert ino (s.vol.inodeAt ino) }) := by
  rw [OfsState.readInode, if_neg (by omega), Cmd.bind_get]
  cases s.cache.get ino with
  | some n => rfl
  | none =>
    refine (bind_ok (h.readBlk _)).trans ?_
    have hview : (s.pending.lookup (tableBlk ino)).getD (s.dev.disk (tableBlk ino)) = s.vol.blk (tableBlk ino) := by
      show _ = s.view (tableBlk ino)
      rw [view, if_pos (target_tableBlk hino).2.2]
    rw [hview]
    rfl

theorem readInode_out {ino : Nat} (hino : maxInodes ≤ ino) : readInode ino s = (.ok none, s) := by
  unfold readInode
  rw [if_pos hino]
  rfl

end OfsState

/-- On a sound state every request keeps the contract of the volume. -/
theorem handle_volume (q : Request) (s : OfsState) (h : s.Sound) (hfresh : Fresh q s) (hpre : volume.pre q s.vol) :
    (handle q).wp (fun r s' => s'.Sound ∧ volume.post q s.vol r s'.vol) (fun _ => False) (fun _ => True) s := by
  cases q with
  | readBlk b =>
    refine wp_of_ok (h.readBlk b) ⟨h, rfl, fun hb => ?_⟩
    show _ = some (s.view b)
    rw [view, if_pos hb]
  | writeBlk b d => exact wp_of_ok rfl ⟨(h.writeBlk hpre d).1, (h.writeBlk hpre d).2, rfl⟩
  | readInode ino =>
    by_cases hino : ino < maxInodes
    · have hval := hfresh hino
      have hrun := h.readInode hino
      cases hc : s.cache.get ino with
      | some n =>
        rw [hc] at hrun
        rw [hrun] at hval
        refine wp_of_ok hrun ⟨h, rfl, ?_⟩
        rw [if_pos hino]
        exact Res.ok.inj hval
      | none =>
        rw [hc] at hrun
        refine wp_of_ok hrun ⟨h.withCache _, rfl, ?_⟩
        rw [if_pos hino]
    · refine wp_of_ok (readInode_out (by omega)) ⟨h, rfl, ?_⟩
      rw [if_neg hino]
  | invalidate ino => exact wp_of_ok rfl ⟨h.withCache _, rfl⟩
  | commitTxn =>
    rcases h.commitTxn with ⟨hpos, hlen, hrun⟩ | ⟨_, hrun⟩
    · exact wp_of_ok hrun (h.committed hpos hlen)
    · exact wp_of_ok hrun ⟨h, rfl⟩
  | totalBlocks => exact wp_of_ok rfl ⟨h, rfl, rfl⟩
  | panic msg => exact (wp_die msg).mpr trivial

/-- What a program ensures of the volume is what its runs do, where `read_inode` returns the inode last written. -/
theorem run_volume {α : Type} {p : FsProg α} {s : OfsState} {P : α → Vol → Prop} (h : s.Sound)
    (hp : p.ensures volume P s.vol) (hfresh : p.Meets handle Fresh s) :
    (p.run handle).wp (fun a s' => s'.Sound ∧ P a s'.vol) (fun _ => False) (fun _ => True) s :=
  run_ensures handle_volume h hp hfresh

/-! ## Rules for requests -/

section Rules
variable {v : Vol} {b ino : Nat}

theorem ensures_readBlk {P : Option Block → Vol → Prop} (hb : Ofs.Data b) (h : P (some (v.blk b)) v) :
    (readBlk b).ensures volume P v := by
  refine ensures_request.mpr ⟨trivial, fun r v' hr => ?_⟩
  rw [hr.1, hr.2 hb]
  exact h

variable {P : Bool → Vol → Prop} {n : RawInode}

theorem ensures_writeBlk {d : Block} (hb : Target b) (h : P true (v.write b d)) :
    (writeBlk b d).ensures volume P v := by
  refine ensures_request.mpr ⟨hb, fun r v' hr => ?_⟩
  rw [hr.1, hr.2]
  exact h

theorem ensures_readInode {P : Option RawInode → Vol → Prop} (hin : ino < maxInodes → P (some (v.inodeAt ino)) v)
    (hout : maxInodes ≤ ino → P none v) : (readInode ino).ensures volume P v := by
  refine ensures_request.mpr ⟨trivial, fun r v' hr => ?_⟩
  rw [hr.1, hr.2]
  split_ifs with hino
  · exact hin hino
  · exact hout (by omega)

theorem ensures_invalidate {P : Unit → Vol → Prop} (h : P () v) : (invalidate ino).ensures volume P v :=
  ensures_request.mpr ⟨trivial, fun _ v' hr => by
    rw [show v' = v from hr]
    exact h⟩

theorem ensures_commitTxn (h : ∀ ok, P ok v) : commitTxn.ensures volume P v :=
  ensures_request.mpr ⟨trivial, fun ok v' hr => by
    rw [show v' = v from hr]
    exact h ok⟩

theorem ensures_totalBlocks {P : Nat → Vol → Prop} (h : P v.total v) : totalBlocks.ensures volume P v := by
  refine ensures_request.mpr ⟨trivial, fun r v' hr => ?_⟩
  rw [hr.1, hr.2]
  exact h

theorem ensures_panic {α : Type} {P : α → Vol → Prop} (msg : String) : (panic msg).ensures volume P v :=
  ⟨trivial, fun r => nomatch r⟩

theorem writeInode_out (hino : maxInodes ≤ ino) : writeInode ino n = pure false := if_pos hino

theorem ensures_writeInode (hino : ino < maxInodes) (h : P true (v.putInode ino n)) :
    (writeInode ino n).ensures volume P v := by
  rw [writeInode, if_neg (by omega), ensures_bind]
  refine ensures_invalidate ?_
  refine ensures_readBlk (target_tableBlk hino).2.2 ?_
  exact ensures_writeBlk (target_tableBlk hino) h

end Rules
end OpenV.Vfs
