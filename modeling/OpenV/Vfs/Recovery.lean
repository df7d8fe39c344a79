import OpenV.Lib.Writes
import OpenV.Vfs.Journal

/- Crash atomicity of the journal: after a power cut at any write of `commit_txn`,
   `journal_replay` leaves the blocks of the transaction all old or all new. -/
namespace OpenV.Vfs

open Function Dev List

/-! ## Words of a block -/

section Words
variable {b : Block} {off off' : Nat} {v : BitVec 32}

/-- A word is its four bytes. -/
theorem leBytes (v : BitVec 32) : leByte v 3 ++ leByte v 2 ++ leByte v 1 ++ leByte v 0 = v := by
  apply BitVec.eq_of_getLsbD_eq
  intro i hi
  simp only [leByte, BitVec.getLsbD_append, BitVec.getLsbD_setWidth]
  split_ifs <;> grind

theorem putU32_at {i : Nat} (h : i < 4) : putU32 b off v (off + i) = leByte v i := by
  rw [putU32, if_pos ⟨by omega, by omega⟩, Nat.add_sub_cancel_left]

theorem putU32_out {i : Nat} (h : i < off ∨ off + 4 ≤ i) : putU32 b off v i = b i := by
  rw [putU32, if_neg (by omega)]

theorem u32Le_putU32 : u32Le (putU32 b off v) off = v := by
  have h0 : putU32 b off v off = leByte v 0 := putU32_at (i := 0) (by omega)
  rw [u32Le, putU32_at (by omega), putU32_at (by omega), putU32_at (by omega), h0]
  exact leBytes v

theorem u32Le_putU32_of_disjoint (h : off' + 4 ≤ off ∨ off + 4 ≤ off' := by first | omega | decide) :
    u32Le (putU32 b off v) off' = u32Le b off' := by
  rw [u32Le, u32Le, putU32_out (by omega), putU32_out (by omega), putU32_out (by omega), putU32_out (by omega)]

end Words

/-! ## Writes and power cuts -/

namespace Dev
variable {d : Dev} {ws ws' : List (Nat × Block)}

/-- The power goes before all of `ws` are written. -/
def cuts (d : Dev) (ws : List (Nat × Block)) : Prop := ∃ n, d.left = some n ∧ n < ws.length

/-- The part of `ws` that is written before the power goes. -/
def reached (d : Dev) (ws : List (Nat × Block)) : List (Nat × Block) :=
  match d.left with
  | some n => ws.take n
  | none => ws

/-- The device after the writes `ws`, or as many of them as come before the power goes. -/
def issue (d : Dev) (ws : List (Nat × Block)) : Dev :=
  { d with disk := applyWrites (d.reached ws) d.disk, left := d.left.map (· - ws.length) }

@[simp] theorem issue_nil : d.issue [] = d := by
  rcases d with ⟨disk, left, faulty⟩
  cases left with
  | none => rfl
  | some n => simp [issue, reached]

theorem issue_append : (d.issue ws).issue ws' = d.issue (ws ++ ws') := by
  rcases d with ⟨disk, left, faulty⟩
  cases left with
  | none => simp [issue, reached, applyWrites_append]
  | some n => simp [issue, reached, take_append, applyWrites_append, Nat.sub_sub]

theorem cuts_append : d.cuts (ws ++ ws') ↔ d.cuts ws ∨ (d.issue ws).cuts ws' := by
  rcases d with ⟨disk, left, faulty⟩
  cases left with
  | none => simp [cuts, issue]
  | some n =>
    simp only [cuts, issue, Option.map_some, Option.some.injEq, exists_eq_left', length_append]
    omega

theorem issue_of_cuts (h : d.cuts ws) : d.issue (ws ++ ws') = d.issue ws := by
  obtain ⟨n, hleft, hn⟩ := h
  simp only [issue, reached, hleft, Option.map_some, length_append]
  rw [take_append_of_le_length (Nat.le_of_lt hn)]
  simp only [mk.injEq, Option.some.injEq, true_and, and_true]
  omega

end Dev

namespace Ofs
variable {α β : Type} {s : Ofs} {ws ws' : List (Nat × Block)}

/-- From `s`, the command `c` writes `ws` and returns `a`, unless the power goes before. -/
structure Issues (s : Ofs) (c : Cmd Ofs α) (ws : List (Nat × Block)) (a : α) : Prop where
  dev : (c s).2.dev = s.dev.issue ws
  done : ¬s.dev.cuts ws → (c s).1 = .ok a
  cut : s.dev.cuts ws → (c s).1 = .panic "power cut"

variable {i b : Nat} {c : Cmd Ofs α} {a : α} {e : Nat × Block} {disk old : Nat → Block}

/-- No write. -/
theorem Issues.quiet (hdev : (c s).2.dev = s.dev) (hval : (c s).1 = .ok a) : s.Issues c [] a := by
  exact ⟨by rw [hdev, issue_nil], fun _ => hval, fun ⟨n, _, hn⟩ => absurd hn (Nat.not_lt_zero n)⟩

theorem Issues.bind {f : α → Cmd Ofs β} {b : β} (hc : s.Issues c ws a)
    (hf : ∀ s' : Ofs, s'.dev = s.dev.issue ws → s'.Issues (f a) ws' b) : s.Issues (c >>= f) (ws ++ ws') b := by
  obtain ⟨hdev, hdone, hcut⟩ := hc
  have hstep : (c >>= f) s = Cmd.bind c f s := rfl
  rw [Cmd.bind] at hstep
  rcases hcs : c s with ⟨r, s'⟩
  rw [hcs] at hdev hdone hcut hstep
  by_cases h1 : s.dev.cuts ws
  · -- the power goes in the first part
    have hr : r = .panic "power cut" := hcut h1
    subst hr
    refine ⟨?_, fun hn => absurd (cuts_append.mpr (.inl h1)) hn, fun _ => by rw [hstep]⟩
    rw [hstep, issue_of_cuts h1]
    exact hdev
  · have hr : r = .ok a := hdone h1
    subst hr
    obtain ⟨hdev', hdone', hcut'⟩ := hf s' hdev
    have hiff : s.dev.cuts (ws ++ ws') ↔ s'.dev.cuts ws' := by
      rw [cuts_append, ← show s'.dev = s.dev.issue ws from hdev]
      exact ⟨fun h => h.resolve_left h1, .inr⟩
    refine ⟨?_, fun hn => ?_, fun hy => ?_⟩
    · rw [hstep, hdev', show s'.dev = s.dev.issue ws from hdev, issue_append]
    · rw [hstep]
      exact hdone' (mt hiff.mpr hn)
    · rw [hstep]
      exact hcut' (hiff.mp hy)

theorem issues_readBlock (hok : s.dev.faulty = false) (blk : Nat) : s.Issues (readBlock blk) [] (some (s.dev.disk blk)) := by
  refine .quiet rfl ?_
  show Res.ok (if s.dev.faulty then none else some (s.dev.disk blk)) = _
  rw [hok]
  rfl

theorem issues_writeBlock (hok : s.dev.faulty = false) (blk : Nat) (data : Block) :
    s.Issues (writeBlock blk data) [(blk, data)] true := by
  rcases s with ⟨⟨disk, left, faulty⟩, pending⟩
  cases hok
  rcases left with _ | _ | n
  · exact ⟨rfl, fun _ => rfl, fun ⟨n, hn, _⟩ => by cases hn⟩
  · exact ⟨rfl, fun h => absurd ⟨0, rfl, Nat.one_pos⟩ h, fun _ => rfl⟩
  · refine ⟨?_, fun _ => rfl, fun ⟨m, hm, hlt⟩ => ?_⟩
    · simp only [issue, reached, take_succ_cons, take_nil]
      rfl
    · cases hm
      exact absurd hlt (by simp)

theorem issues_writeAll : ∀ (ws : List (Nat × Block)) {s : Ofs}, s.dev.faulty = false → s.Issues (writeAll ws) ws true
  | [], _, _ => .quiet rfl rfl
  | (blk, data) :: ws, s, hok =>
    (issues_writeBlock hok blk data).bind fun s' hs' => issues_writeAll ws (by rw [hs']; exact hok)

/-- The writes of a transaction, phase by phase. -/
def txnWrites (entries : List (Nat × Block)) : List (Nat × Block) :=
  slotWrites entries ++ ([(journalHdrBlk, prepared entries)] ++ ([(journalHdrBlk, committed entries)] ++
    (entries ++ [(journalHdrBlk, clearHeader)])))

theorem issues_commitPhases (hok : s.dev.faulty = false) (entries : List (Nat × Block)) :
    s.Issues (commitPhases entries) (txnWrites entries) true := by
  have hdev : ∀ {s1 s2 : Ofs} {ws}, s1.dev.faulty = false → s2.dev = s1.dev.issue ws → s2.dev.faulty = false :=
    fun h e => by
      rw [e]
      exact h
  refine (issues_writeAll _ hok).bind fun s1 h1 => ?_
  have hok1 := hdev hok h1
  refine (issues_writeBlock hok1 _ _).bind fun s2 h2 => ?_
  have hok2 := hdev hok1 h2
  refine (issues_writeBlock hok2 _ _).bind fun s3 h3 => ?_
  have hok3 := hdev hok2 h3
  refine (issues_writeAll _ hok3).bind fun s4 h4 => ?_
  exact (issues_writeBlock (hdev hok3 h4) _ _).bind fun s5 _ => .quiet rfl rfl

/-- `commit_txn` issues the writes of its phases in order. -/
theorem issues_commitTxn (hok : s.dev.faulty = false) (hpos : s.pending ≠ []) (hlen : s.pending.length ≤ journalSlots) :
    s.Issues commitTxn (txnWrites s.pending) true := by
  have hrun : commitTxn s = commitPhases s.pending s := by
    rw [commitTxn, Cmd.bind_get, if_neg (by simpa using hpos), if_neg (by omega)]
  obtain ⟨h1, h2, h3⟩ := issues_commitPhases hok s.pending
  rw [← hrun] at h1 h2 h3
  exact ⟨h1, h2, h3⟩

/-! ## Headers -/

/-- The targets from word `4 + j` on. -/
theorem putTargets_from (entries : List (Nat × Block)) : ∀ (hdr : Block) (j : Nat),
    (∀ off, off + 4 ≤ 16 + j * 4 → u32Le ((entries.zipIdx j).foldl (fun hdr (e, i) =>
      putU32 hdr (16 + i * 4) (BitVec.ofNat 32 e.1)) hdr) off = u32Le hdr off) ∧
    ∀ i e, entries[i]? = some e → u32Le ((entries.zipIdx j).foldl (fun hdr (e, i) =>
      putU32 hdr (16 + i * 4) (BitVec.ofNat 32 e.1)) hdr) (16 + (j + i) * 4) = BitVec.ofNat 32 e.1 := by
  induction entries with
  | nil => exact fun hdr j => ⟨fun _ _ => rfl, fun i e he => by simp at he⟩
  | cons x entries ih =>
    intro hdr j
    obtain ⟨hlow, hat⟩ := ih (putU32 hdr (16 + j * 4) (BitVec.ofNat 32 x.1)) (j + 1)
    refine ⟨fun off h => ?_, fun i e he => ?_⟩
    · rw [zipIdx_cons, foldl_cons, hlow off (by omega), u32Le_putU32_of_disjoint (.inl h)]
    · rw [zipIdx_cons, foldl_cons]
      cases i with
      | zero =>
        cases he
        rw [hlow _ (by omega), Nat.add_zero, u32Le_putU32]
      | succ i =>
        rw [show j + (i + 1) = j + 1 + i by omega]
        exact hat i e he

variable {entries : List (Nat × Block)}

theorem u32Le_prepared {off : Nat} (h : off + 4 ≤ 16) : u32Le (prepared entries) off =
    u32Le (putU32 (putU32 (putU32 (putU32 zeroBlock 0 journalMagic) 4 (BitVec.ofNat 32 entries.length)) 8 0#32) 12
      (headerCrc journalMagic (BitVec.ofNat 32 entries.length) 0#32)) off :=
  (putTargets_from entries _ 0).1 off (by omega)

theorem u32Le_committed_target (he : entries[i]? = some e) :
    u32Le (committed entries) (16 + i * 4) = BitVec.ofNat 32 e.1 := by
  have hat := (putTargets_from entries (putU32 (putU32 (putU32 (putU32 zeroBlock 0 journalMagic) 4
    (BitVec.ofNat 32 entries.length)) 8 0#32) 12 (headerCrc journalMagic (BitVec.ofNat 32 entries.length) 0#32)) 0).2 i e he
  rw [Nat.zero_add] at hat
  rw [committed, u32Le_putU32_of_disjoint, u32Le_putU32_of_disjoint]
  exact hat

/-- A header that is not committed is not acted on. -/
theorem acceptHeader_of_not_committed {hdr : Block} (h : u32Le hdr 8 ≠ 1#32) : acceptHeader hdr = none :=
  if_pos (.inr (.inl h))

theorem acceptHeader_prepared : acceptHeader (prepared entries) = none := by
  refine acceptHeader_of_not_committed ?_
  rw [u32Le_prepared (by omega), u32Le_putU32_of_disjoint, u32Le_putU32]
  decide

theorem acceptHeader_clear : acceptHeader clearHeader = none := by
  refine acceptHeader_of_not_committed ?_
  decide

theorem acceptHeader_committed (hpos : entries ≠ []) (hlen : entries.length ≤ journalSlots) :
    acceptHeader (committed entries) = some entries.length := by
  have hmagic : u32Le (committed entries) 0 = journalMagic := by
    rw [committed, u32Le_putU32_of_disjoint, u32Le_putU32_of_disjoint, u32Le_prepared (by omega),
      u32Le_putU32_of_disjoint, u32Le_putU32_of_disjoint, u32Le_putU32_of_disjoint,
      u32Le_putU32]
  have hcount : u32Le (committed entries) 4 = BitVec.ofNat 32 entries.length := by
    rw [committed, u32Le_putU32_of_disjoint, u32Le_putU32_of_disjoint, u32Le_prepared (by omega),
      u32Le_putU32_of_disjoint, u32Le_putU32_of_disjoint, u32Le_putU32]
  have hmark : u32Le (committed entries) 8 = 1#32 := by
    rw [committed, u32Le_putU32_of_disjoint, u32Le_putU32]
  have hcrc : u32Le (committed entries) 12 = headerCrc journalMagic (BitVec.ofNat 32 entries.length) 1#32 := by
    rw [committed, u32Le_putU32]
  have hn : (BitVec.ofNat 32 entries.length).toNat = entries.length := by
    rw [BitVec.toNat_ofNat]
    unfold journalSlots at hlen
    omega
  have hne : entries.length ≠ 0 := fun h => hpos (length_eq_zero_iff.mp h)
  simp only [acceptHeader, hmagic, hcount, hmark, hcrc, hn]
  rw [if_neg (by simp [hne]; exact hlen), if_neg (fun h => h rfl)]

/-! ## Replay -/

/-- What a pending set may be: up to 32 distinct blocks, without block 0 and the journal. -/
structure Txn (entries : List (Nat × Block)) : Prop where
  nonempty : entries ≠ []
  fits : entries.length ≤ journalSlots
  distinct : (entries.map (·.1)).Nodup
  word : ∀ e ∈ entries, e.1 < 2 ^ 32
  nonzero : ∀ e ∈ entries, e.1 ≠ 0
  outside : ∀ e ∈ entries, e.1 < journalHdrBlk ∨ journalDataBlk + journalSlots ≤ e.1

/-- The journal holds the transaction, committed. -/
structure Logged (disk : Nat → Block) (entries : List (Nat × Block)) : Prop where
  header : disk journalHdrBlk = committed entries
  slot : ∀ i e, entries[i]? = some e → disk (journalDataBlk + i) = e.2

/-- Writes to blocks of the transaction do not touch the journal. -/
theorem Txn.journal_kept (h : Txn entries) {ws : List (Nat × Block)} (hws : ∀ w ∈ ws, w ∈ entries)
    (hb : journalHdrBlk ≤ b ∧ b < journalDataBlk + journalSlots) : applyWrites ws disk b = disk b := by
  refine applyWrites_of_notMem fun hm => ?_
  obtain ⟨w, hw, rfl⟩ := mem_map.mp hm
  have := h.outside w (hws w hw)
  omega

theorem Logged.apply (hl : Logged disk entries) (h : Txn entries) {ws : List (Nat × Block)}
    (hws : ∀ w ∈ ws, w ∈ entries) : Logged (applyWrites ws disk) entries := by
  refine ⟨?_, fun i e he => ?_⟩
  · rw [h.journal_kept hws ⟨Nat.le_refl journalHdrBlk, by decide⟩, hl.header]
  · have hi : i < entries.length := (List.getElem?_eq_some_iff.mp he).1
    have hfit := h.fits
    rw [h.journal_kept hws ⟨by unfold journalHdrBlk journalDataBlk; omega, by omega⟩, hl.slot i e he]

theorem issues_replayEntry (hok : s.dev.faulty = false) (h : Txn entries) (hl : Logged s.dev.disk entries)
    (he : entries[i]? = some e) : s.Issues (replayEntry (committed entries) i) [e] () := by
  have hmem := mem_of_getElem? he
  have htarget : (u32Le (committed entries) (16 + i * 4)).toNat = e.1 := by
    rw [u32Le_committed_target he, BitVec.toNat_ofNat, Nat.mod_eq_of_lt (h.word e hmem)]
  have hread := issues_readBlock hok (journalDataBlk + i)
  rw [hl.slot i e he] at hread
  have hne := h.nonzero e hmem
  simp only [replayEntry, htarget, if_neg hne]
  refine hread.bind fun s1 h1 => ?_
  exact (issues_writeBlock (by rw [h1]; exact hok) e.1 e.2).bind fun s2 _ => .quiet rfl rfl

/-- The loop of `journal_replay`, from the entries of `rest` on. -/
theorem issues_replayLoop (h : Txn entries) : ∀ (rest done : List (Nat × Block)) {s : Ofs}, s.dev.faulty = false →
    Logged s.dev.disk entries → done ++ rest = entries →
    s.Issues (Cmd.forEach (range' done.length rest.length) (replayEntry (committed entries))) rest ()
  | [], _, _, _, _, _ => .quiet rfl rfl
  | e :: rest, done, s, hok, hl, hsplit => by
    have he : entries[done.length]? = some e := by
      rw [← hsplit, getElem?_append_right (Nat.le_refl _), Nat.sub_self]
      rfl
    refine (issues_replayEntry hok h hl he).bind fun s1 h1 => ?_
    have hl1 : Logged s1.dev.disk entries := by
      rw [h1]
      refine hl.apply h fun w hw => ?_
      have hw' : w ∈ [e] := by
        unfold reached at hw
        split at hw
        · exact mem_of_mem_take hw
        · exact hw
      rw [mem_singleton.mp hw']
      exact mem_of_getElem? he
    have hrest := issues_replayLoop h rest (done ++ [e]) (by rw [h1]; exact hok) hl1 (by simpa using hsplit)
    rw [length_append] at hrest
    exact hrest

/-- A journal that holds a transaction is applied, and cleared. -/
theorem issues_journalReplay (hok : s.dev.faulty = false) (h : Txn entries) (hl : Logged s.dev.disk entries) :
    s.Issues journalReplay (entries ++ [(journalHdrBlk, clearHeader)]) () := by
  have hread := issues_readBlock hok journalHdrBlk
  rw [hl.header] at hread
  refine hread.bind fun s1 h1 => ?_
  have hsame : s1.dev = s.dev := by rw [h1, issue_nil]
  have hok1 : s1.dev.faulty = false := by
    rw [hsame]
    exact hok
  simp only [acceptHeader_committed h.nonempty h.fits, range_eq_range']
  have hloop := issues_replayLoop h entries [] hok1 (by rw [hsame]; exact hl) rfl
  refine hloop.bind fun s2 h2 => ?_
  exact (issues_writeBlock (by rw [h2]; exact hok1) journalHdrBlk clearHeader).bind fun s3 _ => .quiet rfl rfl

/-- Any other journal is left alone. -/
theorem issues_journalReplay_idle (hok : s.dev.faulty = false) (hidle : acceptHeader (s.dev.disk journalHdrBlk) = none) :
    s.Issues journalReplay [] () := by
  refine (issues_readBlock hok journalHdrBlk).bind fun s1 _ => ?_
  simp only [hidle]
  exact .quiet rfl rfl

/-! ## Crashes -/

/-- The disk after `journal_replay` on a machine that stays up. -/
def replayed (disk : Nat → Block) : Nat → Block := (journalReplay { dev := { disk := disk } }).2.dev.disk

theorem replayed_idle (hidle : acceptHeader (disk journalHdrBlk) = none) : replayed disk = disk := by
  rw [replayed, (issues_journalReplay_idle (s := { dev := { disk := disk } }) rfl hidle).dev]
  rfl

theorem replayed_logged (h : Txn entries) (hl : Logged disk entries) :
    replayed disk = update (applyWrites entries disk) journalHdrBlk clearHeader := by
  rw [replayed, (issues_journalReplay rfl h hl).dev]
  exact applyWrites_append ..

/-- A block that is not part of the journal. -/
def Data (b : Nat) : Prop := b < journalHdrBlk ∨ journalDataBlk + journalSlots ≤ b

theorem Data.ne_header (h : Data b) : b ≠ journalHdrBlk := by
  unfold Data journalDataBlk at h
  unfold journalHdrBlk at h ⊢
  omega

/-- The journal is idle, and the data blocks are those before the transaction or those after it. -/
structure Settled (old : Nat → Block) (entries : List (Nat × Block)) (disk : Nat → Block) : Prop where
  idle : acceptHeader (disk journalHdrBlk) = none
  data : (∀ b, Data b → disk b = old b) ∨ ∀ b, Data b → disk b = applyWrites entries old b

/-- Writes to journal slots are seen neither in the header nor in the data. -/
theorem slotWrites_data (hfits : entries.length ≤ journalSlots) {ws : List (Nat × Block)}
    (hws : ∀ w ∈ ws, w ∈ slotWrites entries) (hb : Data b ∨ b = journalHdrBlk) :
    applyWrites ws disk b = disk b := by
  refine applyWrites_of_notMem fun hm => ?_
  obtain ⟨w, hw, rfl⟩ := mem_map.mp hm
  obtain ⟨⟨e, i⟩, hi, rfl⟩ := mem_map.mp (hws w hw)
  have hlt : i < entries.length := by
    have := (mem_zipIdx hi).2.1
    omega
  unfold Data journalHdrBlk journalDataBlk at hb
  dsimp only at hb
  omega

theorem slotWrites_slot (he : entries[i]? = some e) :
    applyWrites (slotWrites entries) disk (journalDataBlk + i) = e.2 := by
  refine applyWrites_of_mem ?_ (mem_map.mpr ⟨(e, i), ?_, rfl⟩)
  · have hkeys : (slotWrites entries).map (·.1) = (range' 0 entries.length).map (journalDataBlk + ·) := by
      rw [← zipIdx_map_snd, slotWrites, map_map, map_map]
      rfl
    rw [hkeys]
    exact (nodup_range' ..).map fun _ _ => Nat.add_left_cancel
  · rw [mem_zipIdx_iff_getElem?]
    exact he

/-- The disk once the commit marker is written. -/
def afterCommit (old : Nat → Block) (entries : List (Nat × Block)) : Nat → Block :=
  update (update (applyWrites (slotWrites entries) old) journalHdrBlk (prepared entries))
    journalHdrBlk (committed entries)

theorem afterCommit_data (h : Txn entries) (hb : Data b) : afterCommit old entries b = old b := by
  rw [afterCommit, update_of_ne hb.ne_header, update_of_ne hb.ne_header,
    slotWrites_data h.fits (fun _ hw => hw) (.inl hb)]

theorem afterCommit_logged : Logged (afterCommit old entries) entries := by
  refine ⟨update_self .., fun i e he => ?_⟩
  have hne : journalDataBlk + i ≠ journalHdrBlk := by
    unfold journalDataBlk journalHdrBlk
    omega
  rw [afterCommit, update_of_ne hne, update_of_ne hne, slotWrites_slot he]

/-- The data blocks after all entries are written do not depend on the journal. -/
theorem apply_afterCommit (h : Txn entries) (hb : Data b) :
    applyWrites entries (afterCommit old entries) b = applyWrites entries old b := by
  by_cases hm : b ∈ entries.map (·.1)
  · obtain ⟨⟨_, v⟩, hv, rfl⟩ := mem_map.mp hm
    rw [applyWrites_of_mem h.distinct hv, applyWrites_of_mem h.distinct hv]
  · rw [applyWrites_of_notMem hm, applyWrites_of_notMem hm, afterCommit_data h hb]

/-- The disk at the end of the transaction. -/
def afterClear (old : Nat → Block) (entries : List (Nat × Block)) : Nat → Block :=
  update (applyWrites entries (afterCommit old entries)) journalHdrBlk clearHeader

theorem afterClear_settled (h : Txn entries) (old : Nat → Block) : Settled old entries (afterClear old entries) := by
  refine ⟨?_, .inr fun b hb => ?_⟩
  · exact acceptHeader_clear
  · rw [afterClear, update_of_ne hb.ne_header, apply_afterCommit h hb]

/-- Replay finishes what was begun, by `commit_txn` after its marker or by a replay before this one. -/
theorem replayed_resume (h : Txn entries) (hl : Logged disk entries) (j : Nat) :
    replayed (applyWrites ((entries ++ [(journalHdrBlk, clearHeader)]).take j) disk) =
      update (applyWrites entries disk) journalHdrBlk clearHeader := by
  rcases Nat.lt_or_ge entries.length j with hj | hj
  · have hlen : (entries ++ [(journalHdrBlk, clearHeader)]).length ≤ j := by
      rw [length_append]
      exact hj
    rw [take_of_length_le hlen, applyWrites_append]
    refine replayed_idle ?_
    show acceptHeader (update (applyWrites entries disk) journalHdrBlk clearHeader journalHdrBlk) = none
    exact acceptHeader_clear
  · have hlogged : Logged (applyWrites (entries.take j) disk) entries := hl.apply h fun w hw => mem_of_mem_take hw
    rw [take_append_of_le_length hj, replayed_logged h hlogged, applyWrites_redo h.distinct]

theorem reached_eq_take (d : Dev) (ws : List (Nat × Block)) : ∃ m, d.reached ws = ws.take m := by
  unfold reached
  split
  · exact ⟨_, rfl⟩
  · exact ⟨_, take_length.symm⟩

/-- Wherever the writes of a transaction stop, replay settles the disk. -/
theorem replayed_settled (h : Txn entries) (hidle : acceptHeader (old journalHdrBlk) = none) (m : Nat) :
    Settled old entries (replayed (applyWrites ((txnWrites entries).take m) old)) := by
  have hslots : (slotWrites entries).length = entries.length := by simp [slotWrites]
  rcases Nat.lt_or_ge entries.length m with hm | hm
  · obtain ⟨j, rfl⟩ : ∃ j, m = (slotWrites entries).length + (j + 1) := ⟨m - entries.length - 1, by omega⟩
    rw [txnWrites, take_length_add_append, applyWrites_append]
    cases j with
    | zero =>
      -- the header says that nothing is committed
      have hno : acceptHeader (update (applyWrites (slotWrites entries) old) journalHdrBlk (prepared entries)
          journalHdrBlk) = none := by
        exact acceptHeader_prepared
      show Settled old entries (replayed (update (applyWrites (slotWrites entries) old) journalHdrBlk
        (prepared entries)))
      rw [replayed_idle hno]
      refine ⟨hno, .inl fun b hb => ?_⟩
      rw [update_of_ne hb.ne_header, slotWrites_data h.fits (fun _ hw => hw) (.inl hb)]
    | succ j =>
      show Settled old entries (replayed (applyWrites ((entries ++ [(journalHdrBlk, clearHeader)]).take j)
        (afterCommit old entries)))
      rw [replayed_resume h afterCommit_logged]
      exact afterClear_settled h old
  · -- the header has not been touched
    have htake : (txnWrites entries).take m = (slotWrites entries).take m := by
      rw [txnWrites, take_append_of_le_length (by omega)]
    have hkept : ∀ {b}, Data b ∨ b = journalHdrBlk → applyWrites ((slotWrites entries).take m) old b = old b :=
      fun hb => slotWrites_data h.fits (fun _ hw => mem_of_mem_take hw) hb
    have hno : acceptHeader (applyWrites ((slotWrites entries).take m) old journalHdrBlk) = none := by
      rw [hkept (.inr rfl)]
      exact hidle
    rw [htake, replayed_idle hno]
    exact ⟨hno, .inl fun b hb => hkept (.inl hb)⟩

/-- After a power cut at any write of `commit_txn`, or none, replay leaves the blocks of the transaction all old or
all new and every other data block as it was, and a second replay changes nothing. -/
theorem crash_atomic (hok : s.dev.faulty = false) (h : Txn s.pending)
    (hidle : acceptHeader (s.dev.disk journalHdrBlk) = none) : let disk := replayed (commitTxn s).2.dev.disk
    ((∀ e ∈ s.pending, disk e.1 = s.dev.disk e.1) ∨ ∀ e ∈ s.pending, disk e.1 = e.2) ∧
      (∀ b, Data b → b ∉ s.pending.map (·.1) → disk b = s.dev.disk b) ∧ replayed disk = disk := by
  obtain ⟨m, hm⟩ := reached_eq_take s.dev (txnWrites s.pending)
  have hdisk : (commitTxn s).2.dev.disk = applyWrites ((txnWrites s.pending).take m) s.dev.disk := by
    rw [(issues_commitTxn hok h.nonempty h.fits).dev, ← hm]
    rfl
  obtain ⟨hquiet, hdata⟩ := replayed_settled h hidle m
  rw [← hdisk] at hquiet hdata
  refine ⟨hdata.imp (fun hd e he => hd e.1 (h.outside e he)) fun hd e he => ?_, fun b hb hnot => ?_,
    replayed_idle hquiet⟩
  · rw [hd e.1 (h.outside e he), applyWrites_of_mem h.distinct he]
  · rcases hdata with hd | hd
    · exact hd b hb
    · rw [hd b hb, applyWrites_of_notMem hnot]

/-- Block 68 is to change, and the power goes right after the commit marker. -/
def cutRun : Ofs where
  dev := { disk := fun b => if b = journalHdrBlk then clearHeader else zeroBlock, left := some 3 }
  pending := [(68, fun _ => 7#8)]

theorem crash_atomic_cutRun : let disk := replayed (commitTxn cutRun).2.dev.disk
    ((∀ e ∈ cutRun.pending, disk e.1 = cutRun.dev.disk e.1) ∨ ∀ e ∈ cutRun.pending, disk e.1 = e.2) ∧
      (∀ b, Data b → b ∉ cutRun.pending.map (·.1) → disk b = cutRun.dev.disk b) ∧ replayed disk = disk := by
  have hmem : ∀ {e}, e ∈ cutRun.pending → e.1 = 68 := fun he => by rw [mem_singleton.mp he]
  refine crash_atomic rfl ⟨cons_ne_nil _ _, by decide, by decide, fun e he => ?_, fun e he => ?_, fun e he => ?_⟩
    acceptHeader_clear
  · rw [hmem he]
    decide
  · rw [hmem he]
    decide
  · rw [hmem he]
    decide

end Ofs
end OpenV.Vfs
