import OpenV.Lib.Run
import OpenV.Vfs.Paths

/- Directories over whole runs of `create`, `mkdir`, `symlink`, `link` and `unlink`. None
   of them looks whether the name is in the directory already, except `create`, which
   follows links in doing so: a name can get into a directory twice. Where no operation
   adds a name that is there, every directory stays a finite map. -/
namespace OpenV.Vfs

open Cmd Function Prog Vol

/-! ## Directories -/

/-- A directory in use. -/
structure Vol.IsDir (v : Vol) (d : Nat) : Prop where
  ino_lt : d < maxInodes
  used : v.ibit d = true
  itype : (v.inodeAt d).itype = itypeDir

/-- The blocks are owned and the directories are maps. -/
structure Vol.Tidy (v : Vol) : Prop where
  owned : v.Owned
  dirs : ∀ d < maxInodes, (v.inodeAt d).itype = itypeDir → DirOk v d

/-- In the directories of `v`, nothing has changed but what `name` stands for in `d`. -/
def Vol.Changes (d : Nat) (name : String) (r : Option (Nat × BitVec 8)) (v v' : Vol) : Prop :=
  ∀ d', v.IsDir d' → v'.names d' = if d' = d then update (v.names d') name r else v.names d'

/-- An inode has been taken into use. -/
structure Vol.Gets (t : BitVec 8) (child : Nat) (v v' : Vol) : Prop where
  free : v.ibit child = false
  used : v'.ibit child = true
  itype : (v'.inodeAt child).itype = t

/-- What an operation leaves behind that works on a name in a directory; `good` says what a success means. -/
def Vol.Outcome (d : Nat) (name : String) (good : Option (Nat × BitVec 8) → Vol → Prop) (v : Vol) (ok : Bool) (v' : Vol) : Prop :=
  v'.Tidy ∧ ∃ r, v.Changes d name r v' ∧ (ok = true → good r v')

section
variable {v v' v₁ v₂ : Vol} {d child : Nat} {name : String} {x : Nat × BitVec 8} {ok : Bool}

theorem Vol.not_isDir (hfree : v.ibit child = false) : ¬v.IsDir child := fun hd => by
  have hu := hd.used
  rw [hfree] at hu
  cases hu

/-- Where nothing changes in the directories. -/
theorem Vol.changes_of_same (h : ∀ d', v.IsDir d' → v'.names d' = v.names d') (d : Nat) (name : String) :
    v.Changes d name (v.names d name) v' := by
  intro d' hd'
  rw [h d' hd']
  split_ifs with he
  · rw [he, update_eq_self]
  · rfl

theorem Vol.Tidy.unchanged (h : v.Tidy) (d : Nat) (name : String) (good : Option (Nat × BitVec 8) → Vol → Prop) :
    v.Outcome d name good false v :=
  ⟨h, _, changes_of_same (fun _ _ => rfl) d name, nofun⟩

/-- A directory that is not touched. -/
theorem Vol.Tidy.same (h : v.Tidy) (hs : Vol.Same d v v') (hd : d < maxInodes) (ht : (v'.inodeAt d).itype = itypeDir) :
    DirOk v' d ∧ v'.names d = v.names d := by
  rw [hs.itype] at ht
  exact hs.dirOk (h.dirs d hd ht)

/-- One inode is touched, and if it is a directory it is a map. -/
theorem Vol.Tidy.touches (h : v.Tidy) (ht : Vol.Touches (· = child) v v')
    (hchild : child < maxInodes → (v'.inodeAt child).itype = itypeDir → DirOk v' child) : v'.Tidy := by
  refine ⟨ht.owned, fun d hd hdir => ?_⟩
  by_cases he : d = child
  · subst he
    exact hchild hd hdir
  · exact (h.same (ht.same d hd he) hd hdir).1

theorem Vol.IsDir.same (hd : v.IsDir d) (h : v.Tidy) (hs : Vol.Same d v v') : DirOk v' d ∧ v'.names d = v.names d :=
  hs.dirOk (h.dirs d hd.ino_lt hd.itype)

/-- The inode that is touched is no directory in use. -/
theorem Vol.Tidy.untouched (h : v.Tidy) (ht : Vol.Touches (· = child) v v') (hno : ¬v.IsDir child) {d' : Nat}
    (hd' : v.IsDir d') : v'.names d' = v.names d' :=
  (hd'.same h (ht.same d' hd'.ino_lt fun he => hno (he ▸ hd'))).2

/-- A new inode is given back. -/
theorem Vol.Tidy.given_back (h : v.Tidy) (ht : Vol.Touches (· = child) v v') (hfree : v.ibit child = false)
    (hchild : child < maxInodes → (v'.inodeAt child).itype = itypeDir → DirOk v' child)
    {good : Option (Nat × BitVec 8) → Vol → Prop} : v.Outcome d name good false v' :=
  ⟨h.touches ht hchild, _, changes_of_same (fun _ => h.untouched ht (not_isDir hfree)) d name, nofun⟩

/-- The other directories are not touched, and in this one the entry is added, or not. -/
theorem Vol.changes_of_names (hn : v'.names d = update (v.names d) name (some x) ∨ (ok = false ∧ v'.names d = v.names d))
    (hothers : ∀ d', v.IsDir d' → d' ≠ d → v'.names d' = v.names d') :
    ∃ r, v.Changes d name r v' ∧ (ok = true → r = some x) := by
  rcases hn with hn | ⟨rfl, hn⟩
  · refine ⟨some x, fun d' hd' => ?_, fun _ => rfl⟩
    split_ifs with he
    · rw [he, hn]
    · exact hothers d' hd' he
  · refine ⟨v.names d name, changes_of_same (fun d' hd' => ?_) d name, nofun⟩
    by_cases he : d' = d
    · rw [he, hn]
    · exact hothers d' hd' he

/-- An entry is added, or not, between two changes to the new inode. -/
theorem Vol.Tidy.adds (h : v.Tidy) (hd : v.IsDir d) (hfree : v.ibit child = false) (ht : Vol.Touches (· = child) v v₁)
    (ha : Adds d name x ok v₁ v₂) (ht' : Vol.Touches (· = child) v₂ v')
    (hchild : child < maxInodes → (v'.inodeAt child).itype = itypeDir → DirOk v' child) :
    v'.Tidy ∧ ∃ r, v.Changes d name r v' ∧ (ok = true → r = some x) := by
  have hno : ∀ {d'}, v.IsDir d' → d' ≠ child := fun hd' he => not_isDir hfree (by rw [← he]; exact hd')
  have hnames₁ := (hd.same h (ht.same d hd.ino_lt (hno hd))).2
  obtain ⟨hok', hnames'⟩ := (ht'.same d hd.ino_lt (hno hd)).dirOk ha.dirOk
  have hothers : ∀ d' < maxInodes, d' ≠ child → d' ≠ d → Vol.Same d' v v' := fun d' hd' h1 h2 =>
    ((ht.same d' hd' h1).trans (ha.touches.same d' hd' h2)).trans (ht'.same d' hd' h1)
  refine ⟨⟨ht'.owned, fun d' hd' hdir => ?_⟩, ?_⟩
  · by_cases h1 : d' = child
    · subst h1
      exact hchild hd' hdir
    by_cases h2 : d' = d
    · subst h2
      exact hok'
    · exact (h.same (hothers d' hd' h1 h2) hd' hdir).1
  · have hnames := ha.names
    rw [← hnames', hnames₁] at hnames
    exact changes_of_names hnames fun d' hd' h2 => (hd'.same h (hothers d' hd'.ino_lt (hno hd') h2)).2

end

/-! ## The operations in a directory -/

/-- The name can be added to the directory. -/
structure Vol.CanAdd (v : Vol) (d : Nat) (name : String) : Prop where
  dir : v.IsDir d
  new : v.names d name = none

section
variable {v : Vol} {d : Nat} {name : String}

/-- Freeing an inode that is no directory in use. -/
theorem Vol.Owned.touches_free (h : v.Owned) (ino : Nat) : (freeInode ino).ensures volume (fun _ v' =>
    Vol.Touches (· = ino) v v' ∧ ∀ d, v'.inodeAt d = v.inodeAt d) v := by
  refine ensures_mono (ensures_freeInode ino) fun _ v' hv => ?_
  rw [hv]
  exact ⟨h.touches_inodeBitmap ino false, fun d => inodeAt_write (inodeBitmap_ne_table d).symm⟩

variable {child : Nat} {t etype : BitVec 8} {v₁ : Vol}

theorem Vol.CanAdd.ne (ha : v.CanAdd d name) (hfree : v.ibit child = false) : child ≠ d :=
  fun he => not_isDir hfree (by rw [he]; exact ha.dir)

/-- `dir_add_entry` of a new inode that is ready in `v₁`. -/
theorem ensures_addNew (h : v.Tidy) (ha : v.CanAdd d name) (hne : name ≠ "") (hlt : child < maxInodes)
    (hfree : v.ibit child = false) (ht : Vol.Touches (· = child) v v₁) :
    (dirAddEntry d name child t).ensures volume (fun ok => Adds d name (child, t) ok v₁) v₁ := by
  have hsame := ht.same d ha.dir.ino_lt (ha.ne hfree).symm
  obtain ⟨hok, hnames⟩ := ha.dir.same h hsame
  refine ensures_adds ht.owned ha.dir.ino_lt hok (by rw [hnames]; exact ha.new) hne ?_
  unfold maxInodes at hlt
  omega

/-- An inode that was made ready, and whose entry was added, is in use. -/
theorem Adds.gets {v₂ : Vol} (ha : Adds d name (child, t) true v₁ v₂) (hlt : child < maxInodes) (hne : child ≠ d)
    (hfree : v.ibit child = false) (hused : v₁.ibit child = true) (ht : (v₁.inodeAt child).itype = t) :
    v.Gets t child v₂ := by
  have hs := ha.touches.same child hlt hne
  exact ⟨hfree, hs.ibit.trans hused, hs.itype.trans ht⟩

section
variable (h : v.Tidy) (ha : v.CanAdd d name) (hne : name ≠ "")
include h ha hne

/-- The entry of a new inode that is no directory is added, or the inode is given back. -/
theorem ensures_addLeaf {t : BitVec 8} {child : Nat} {v₁ : Vol} (hlt : child < maxInodes)
    (hfree : v.ibit child = false) (ht : Vol.Touches (· = child) v v₁) (hused : v₁.ibit child = true)
    (hitype : (v₁.inodeAt child).itype = t) (hleaf : t ≠ itypeDir) :
    (dirAddEntry d name child t).ensures volume (fun ok v' => (if ok = true then pure true else do
      freeInode child
      pure false : FsProg Bool).ensures volume
        (v.Outcome d name fun r v' => ∃ child, r = some (child, t) ∧ v.Gets t child v') v') v₁ := by
  refine ensures_mono (ensures_addNew h ha hne hlt hfree ht) fun ok v₂ hadd => ?_
  have hne' := ha.ne hfree
  have hitype₂ := ((hadd.touches.same child hlt hne').itype).trans hitype
  cases ok with
  | true =>
    obtain ⟨htidy, r, hch, hr⟩ := h.adds ha.dir hfree ht hadd (.refl hadd.touches.owned) fun _ hdir => by
      rw [hitype₂] at hdir
      exact absurd hdir hleaf
    exact ⟨htidy, r, hch, fun _ => ⟨child, hr rfl, hadd.gets hlt hne' hfree hused hitype⟩⟩
  | false =>
    rw [if_neg Bool.false_ne_true, ensures_bind]
    refine ensures_mono (hadd.touches.owned.touches_free child) fun _ v₃ hf => ?_
    obtain ⟨htidy, r, hch, _⟩ := h.adds ha.dir hfree ht hadd hf.1 fun _ hdir => by
      rw [hf.2, hitype₂] at hdir
      exact absurd hdir hleaf
    exact ⟨htidy, r, hch, nofun⟩

/-- `create`, where there is no such file. -/
theorem ensures_createIn : (createIn d name).ensures volume
    (v.Outcome d name fun r v' => ∃ child, r = some (child, itypeFile) ∧ v.Gets itypeFile child v') v := by
  rw [createIn, ensures_bind]
  refine ensures_mono (ensures_createInode h.owned itypeFile) fun r v₁ hr => ?_
  cases r with
  | none =>
    subst hr
    exact h.unchanged d name _
  | some child =>
    have hc : Created itypeFile child v v₁ := hr
    rw [ensures_bind]
    exact ensures_addLeaf h ha hne hc.ino_lt hc.free hc.touches hc.used (by rw [hc.inode]) (by decide)

theorem ensures_mkdirIn : (mkdirIn d name).ensures volume
    (v.Outcome d name fun r v' => ∃ child, r = some (child, itypeDir) ∧ v.Gets itypeDir child v') v := by
  rw [mkdirIn, ensures_bind]
  refine ensures_mono (ensures_createInode h.owned itypeDir) fun r v₁ hr => ?_
  cases r with
  | none =>
    subst hr
    exact h.unchanged d name _
  | some child =>
    have hc : Created itypeDir child v v₁ := hr
    have hitype : (v₁.inodeAt child).itype = itypeDir := by rw [hc.inode]
    have hd : d < 2 ^ 32 := by
      have := ha.dir.ino_lt
      unfold maxInodes at this
      omega
    rw [ensures_bind]
    refine ensures_mono (ensures_initDir child d) fun ready v₂ hinit => ?_
    rcases hinit with ⟨rfl, rfl⟩ | ⟨rfl, _, nb, hnb, rfl⟩
    · -- the new inode is given back
      rw [if_neg Bool.false_ne_true, ensures_bind]
      refine ensures_mono (hc.touches.owned.touches_free child) fun _ v₃ hf => ?_
      refine h.given_back (hc.touches.trans hf.1) hc.free fun _ _ => dirOk_of_size ?_
      rw [hf.2, hc.inode]
    · have ht : Vol.Touches (· = child) v (v₁.initialised child d nb) :=
        hc.touches.trans (hc.touches.owned.touches_initialised hc.ino_lt hnb)
      have hok := dirOk_initialised hc.ino_lt hd hnb
      have hused : (v₁.initialised child d nb).ibit child = true := by
        rw [ibit, initialised, putInode_of_ne (inodeBitmap_ne_table child),
          write_of_ne hnb.inodeBitmap_ne]
        exact hc.used
      have hitype₂ : ((v₁.initialised child d nb).inodeAt child).itype = itypeDir := by
        rw [initialised, inodeAt_putInode_self]
        exact hitype
      rw [if_pos rfl, ensures_bind]
      refine ensures_mono (ensures_addNew h ha hne hc.ino_lt hc.free ht) fun ok v₃ hadd => ?_
      cases ok with
      | true =>
        obtain ⟨htidy, r, hch, hr⟩ := h.adds ha.dir hc.free ht hadd (.refl hadd.touches.owned) fun _ _ =>
          ((hadd.touches.same child hc.ino_lt (ha.ne hc.free)).dirOk hok).1
        exact ⟨htidy, r, hch, fun _ => ⟨child, hr rfl, hadd.gets hc.ino_lt (ha.ne hc.free) hc.free hused hitype₂⟩⟩
      | false =>
        rw [if_neg Bool.false_ne_true, ensures_bind]
        refine ensures_mono (ensures_fileTruncate hadd.touches.owned hc.ino_lt) fun _ v₄ htr => ?_
        have htr' := htr.touches hadd.touches.owned hc.ino_lt
        rw [ensures_bind]
        refine ensures_mono (htr'.owned.touches_free child) fun _ v₅ hf => ?_
        obtain ⟨htidy, r, hch, _⟩ := h.adds ha.dir hc.free ht hadd (htr'.trans hf.1) fun _ _ => dirOk_of_size (by
          rw [hf.2, htr.inode]
          rfl)
        exact ⟨htidy, r, hch, fun e => by cases e⟩

end

/-- The type of an inode is not written by `file_write`. -/
theorem itype_fileWrite (h : v.Owned) {ino : Nat} (hino : ino < maxInodes) (off : Nat) (data : Bytes) :
    (fileWrite ino off data).ensures volume (fun _ v' => (v'.inodeAt ino).itype = (v.inodeAt ino).itype ∧
      v'.ibit ino = v.ibit ino) v := by
  have hgrow : ∀ {v v' : Vol}, Vol.Grows ino v v' → (v'.inodeAt ino).itype = (v.inodeAt ino).itype ∧ v'.ibit ino = v.ibit ino :=
    fun hg => ⟨hg.inode.1, by rw [ibit, hg.inodeBitmap, ibit]⟩
  refine ensures_mono (ensures_fileWrite_of h (fun _ v' => (v'.inodeAt ino).itype = (v.inodeAt ino).itype ∧
    v'.ibit ino = v.ibit ino) ⟨rfl, rfl⟩ fun _ _ v₁ v₂ s x _ hI _ hg hs h0 _ => ?_) fun r v' hr => ?_
  · have hlow : inodeBitmapBlk ≠ v₂.ref ino s := (hg.owned.ref_ne_low (by decide) hino h0).symm
    rw [inodeAt_write (not_table (hg.owned.start ino hino s h0) hino), ibit, write_of_ne hlow]
    exact ⟨(hgrow hg).1.trans hI.1, (hgrow hg).2.trans hI.2⟩
  · cases r with
    | ok k =>
      obtain ⟨_, _, _, v₁, _, hI, rfl⟩ := hr
      unfold resized
      split_ifs
      · rw [inodeAt_putInode_self, ibit, putInode_of_ne (inodeBitmap_ne_table ino)]
        exact hI
      · exact hI
    | error e =>
      rcases hr with rfl | ⟨_, v₁, hI, hg⟩
      · exact ⟨rfl, rfl⟩
      · exact ⟨(hgrow hg).1.trans hI.1, (hgrow hg).2.trans hI.2⟩

theorem ensures_symlinkIn (h : v.Tidy) (ha : v.CanAdd d name) (hne : name ≠ "") (target : String) :
    (symlinkIn d name target).ensures volume
      (v.Outcome d name fun r v' => ∃ child, r = some (child, itypeSymlink) ∧ v.Gets itypeSymlink child v') v := by
  rw [symlinkIn, ensures_bind]
  refine ensures_mono (ensures_createInode h.owned itypeSymlink) fun r v₁ hr => ?_
  cases r with
  | none =>
    subst hr
    exact h.unchanged d name _
  | some child =>
    have hc : Created itypeSymlink child v v₁ := hr
    rw [ensures_bind]
    refine ensures_mono (ensures_and (touches_fileWrite hc.touches.owned child 0 _)
      (itype_fileWrite hc.touches.owned hc.ino_lt 0 _)) fun res v₂ hw => ?_
    have ht := hc.touches.trans hw.1
    have hitype : (v₂.inodeAt child).itype = itypeSymlink := by
      rw [hw.2.1, hc.inode]
    have hused := hw.2.2.trans hc.used
    cases res with
    | error e =>
      rw [ensures_bind]
      refine ensures_mono (ht.owned.touches_free child) fun _ v₃ hf => ?_
      refine h.given_back (ht.trans hf.1) hc.free fun _ hdir => ?_
      rw [hf.2, hitype] at hdir
      cases hdir
    | ok k =>
      rw [ensures_bind]
      exact ensures_addLeaf h ha hne hc.ino_lt hc.free ht hused hitype (by decide)

/-! ### Links -/

/-- A link in something that is no directory fails, and the number of links is what it was. -/
theorem ensures_dirLinkEntry_notDir (h : v.Owned) (hno : d < maxInodes → (v.inodeAt d).itype ≠ itypeDir) :
    (dirLinkEntry d name child etype).ensures volume (fun ok v' => ok = false ∧ Vol.Touches (fun _ => False) v v') v := by
  refine ensures_mono (ensures_dirLinkEntry_steps h d name child etype) fun ok v' hr => ?_
  rcases hr with ⟨hok, rfl⟩ | ⟨v₀, v₁, hinc, ht, hchild, hback⟩
  · exact ⟨hok, .refl h⟩
  obtain ⟨rfl, rfl⟩ := ht.notDir fun hd => by
    rw [(hinc.same d hd id).itype]
    exact hno hd
  refine ⟨rfl, hinc.trans ?_⟩
  rcases hback with hback | ⟨_, rfl, n, rfl, hroot, htype, hsize⟩
  · exact hback
  · exact hinc.owned.touches_links hchild hroot htype hsize

theorem ensures_linkIn (h : v.Tidy) (ha : d < maxInodes → (v.inodeAt d).itype = itypeDir → v.CanAdd d name)
    (hne : name ≠ "") :
    (dirLinkEntry d name child etype).ensures volume (v.Outcome d name fun r _ => r = some (child, etype)) v := by
  by_cases hdir : d < maxInodes ∧ (v.inodeAt d).itype = itypeDir
  swap
  · refine ensures_mono (ensures_dirLinkEntry_notDir h.owned fun hd ht => hdir ⟨hd, ht⟩) fun ok v' hr => ?_
    obtain ⟨rfl, ht⟩ := hr
    have hsame : ∀ d' < maxInodes, Vol.Same d' v v' := fun d' hd' => ht.same d' hd' id
    refine ⟨⟨ht.owned, fun d' hd' hdir => (h.same (hsame d' hd') hd' hdir).1⟩, _,
      changes_of_same (fun d' hd' => (hd'.same h (hsame d' hd'.ino_lt)).2) d name, nofun⟩
  have hadd := ha hdir.1 hdir.2
  have hok := h.dirs d hdir.1 hdir.2
  refine ensures_mono (ensures_dirLinkEntry h.owned hdir.1 hok hadd.new hne) fun ok v' hadd => ?_
  exact ⟨h.touches hadd.touches fun _ _ => hadd.dirOk, changes_of_names hadd.names fun d' hd' hne' =>
    (hd'.same h (hadd.touches.same d' hd'.ino_lt hne')).2⟩

/-- Every entry under the name that is for a directory leaves it a link. -/
def Vol.Keeps (v : Vol) (d : Nat) (name : String) : Prop :=
  ∀ k ino t, v.ent d k = some (name, ino, t) → ino < maxInodes → (v.inodeAt ino).itype = itypeDir →
    satDec (v.inodeAt ino).nlink ≠ 0#32

theorem ensures_unlinkIn (h : v.Tidy) (hk : v.Keeps d name) :
    (dirUnlink d name).ensures volume (v.Outcome d name fun r _ => r = none) v := by
  refine ensures_mono (ensures_dirUnlink h.owned d name) fun ok v' hr => ?_
  cases ok with
  | false =>
    rw [hr.1]
    exact h.unchanged d name _
  | true =>
    obtain ⟨hd, block, slot, s, hs, h0, he, hrem⟩ := hr
    have hent := he.ent
    have hkeep := hk _ _ _ hent
    have hitype := fun {d'} hd' => hrem.itype h.owned hd h0 (d := d') hd'
    have hothers : ∀ d' < maxInodes, (v.inodeAt d').itype = itypeDir → d' ≠ d → Vol.Same d' v v' := fun d' hd' hdir hne =>
      (hrem.touches_last h.owned hd (leafSlot_leaf hs) h0).same d' hd' fun hT => by
        rcases hT with ⟨rfl, hlast⟩ | he
        · exact hkeep hd' hdir (hlast hd')
        · exact hne he
    have hself : (v.inodeAt d).itype = itypeDir → DirOk v' d ∧ v'.names d = update (v.names d) name none := by
      intro hdir
      have hok := h.dirs d hd hdir
      obtain ⟨hlaid, hents⟩ := hrem.ent h.owned hd hok.laid hs h0 he.slot_lt he.covered fun hi => by
        have := hkeep (by rw [hi]; exact hd) (by rw [hi]; exact hdir)
        rw [hi] at this
        exact this
      exact hok.remove hlaid hent hents
    refine ⟨⟨(hrem.touches h.owned hd (leafSlot_leaf hs) h0).owned, fun d' hd' hdir => ?_⟩, none, fun d' hd' => ?_, fun _ => rfl⟩
    · rw [hitype hd'] at hdir
      by_cases hi : d' = d
      · subst hi
        exact (hself hdir).1
      · exact ((hothers d' hd' hdir hi).dirOk (h.dirs d' hd' hdir)).1
    · split_ifs with hi
      · subst hi
        exact (hself hd'.itype).2
      · exact ((hothers d' hd'.ino_lt hd'.itype hi).dirOk (h.dirs d' hd'.ino_lt hd'.itype)).2

/-- `create` of a file that is there. -/
theorem ensures_truncateFile (h : v.Tidy) (ino : Nat) (hfile : ino < maxInodes → (v.inodeAt ino).itype ≠ itypeDir) :
    (fileTruncate ino).ensures volume (fun _ v' => v'.Tidy ∧ ∀ d', v.IsDir d' → v'.names d' = v.names d') v := by
  by_cases hino : ino < maxInodes
  · refine ensures_mono (ensures_fileTruncate h.owned hino) fun _ v' ht => ?_
    have htouch := ht.touches h.owned hino
    refine ⟨h.touches htouch fun _ hdir => absurd hdir ?_, fun d' hd' => h.untouched htouch (fun hd => hfile hino hd.itype) hd'⟩
    rw [ht.inode]
    exact hfile hino
  · refine ensures_mono (ensures_fileTruncate_out (by omega)) fun _ v' hv => ?_
    rw [hv]
    exact ⟨h, fun _ _ => rfl⟩

end

/-! ## Runs -/

/-- A part of a program that only resolves a path. -/
theorem run_quiet_bind {α β : Type} {p : FsProg α} {f : α → FsProg β} {s : OfsState} {Q : β → OfsState → Prop}
    (hq : p.Within Request.Quiet) (hs : s.Sound) (hf : (p >>= f).Meets handle Fresh s)
    (h : ∀ a s₁, p.run handle s = (.ok a, s₁) → s₁.Sound → s₁.vol = s.vol → (f a).Meets handle Fresh s₁ →
      ((f a).run handle).wp Q (fun _ => False) (fun _ => True) s₁) :
    ((p >>= f).run handle).wp Q (fun _ => False) (fun _ => True) s := by
  rw [meets_bind] at hf
  have hw := run_volume hs (ensures_quiet hq s.vol) hf.1
  rw [run_bind, wp_bind]
  rcases hrun : p.run handle s with ⟨r, s₁⟩
  rw [wp_of_eq hrun] at hw ⊢
  cases r with
  | ok a => exact h a s₁ hrun hw.1 hw.2 (hf.2 a s₁ hrun)
  | err e => exact hw
  | panic e => trivial

inductive DirOp where
  | create (path : String)
  | mkdir (path : String)
  | symlink (path target : String)
  | link (old new : String)
  | unlink (path : String)

namespace DirOp

def prog : DirOp → FsProg Bool
  | create path => Vfs.create path
  | mkdir path => Vfs.mkdir path
  | symlink path target => Vfs.symlink path target
  | link old new => Vfs.link old new
  | unlink path => Vfs.unlink path

def exec (op : DirOp) : Cmd OfsState Unit := op.prog.run handle >>= fun _ => pure ()

/-- Where the operation works: the directory, the name and the type that the directory was found under. -/
def place : DirOp → FsProg (Option (Nat × String × BitVec 8))
  | create path => locate path
  | mkdir path => locate path
  | symlink path _ => locate path
  | link old new => lookupPath old >>= fun _ => locate new
  | unlink path => locate path

/-- What `create` finds at its path. -/
def found (path : String) : FsProg (Option (Nat × BitVec 8)) := locate path >>= fun _ => lookupPath path

/-- An added name is not in the directory, which is in use; `create` does not truncate a directory under the name of
a file; no directory loses its last link. -/
def Allowed (s : OfsState) : DirOp → Prop
  | create path => ∀ d name, ((locate path).run handle s).1 = .ok (some (d, name, itypeDir)) →
    (((found path).run handle s).1 = .ok none → s.vol.CanAdd d name) ∧
    ∀ ino, ((found path).run handle s).1 = .ok (some (ino, itypeFile)) → ino < maxInodes →
      (s.vol.inodeAt ino).itype ≠ itypeDir
  | mkdir path => ∀ d name, ((locate path).run handle s).1 = .ok (some (d, name, itypeDir)) → s.vol.CanAdd d name
  | symlink path _ => ∀ d name, ((locate path).run handle s).1 = .ok (some (d, name, itypeDir)) → s.vol.CanAdd d name
  | link old new => ∀ x, ((lookupPath old).run handle s).1 = .ok (some x) →
    ∀ d name t, ((link old new).place.run handle s).1 = .ok (some (d, name, t)) → d < maxInodes →
      (s.vol.inodeAt d).itype = itypeDir → s.vol.CanAdd d name
  | unlink path => ∀ d name, ((locate path).run handle s).1 = .ok (some (d, name, itypeDir)) → s.vol.Keeps d name

/-- The condition on a step. -/
structure Good (op : DirOp) (s : OfsState) : Prop where
  fresh : op.prog.Meets handle Fresh s
  allowed : op.Allowed s

/-- What the name stands for after a success: a new inode, the one that is linked, or nothing. A `create` that found a
file leaves it as it is. -/
def Gives (s : OfsState) (d : Nat) (name : String) (r : Option (Nat × BitVec 8)) (v' : Vol) : DirOp → Prop
  | create path => (∃ child, r = some (child, itypeFile) ∧ s.vol.Gets itypeFile child v') ∨
    (∃ ino, ((found path).run handle s).1 = .ok (some (ino, itypeFile))) ∧ r = s.vol.names d name
  | mkdir _ => ∃ child, r = some (child, itypeDir) ∧ s.vol.Gets itypeDir child v'
  | symlink _ _ => ∃ child, r = some (child, itypeSymlink) ∧ s.vol.Gets itypeSymlink child v'
  | link old _ => ∃ x, ((lookupPath old).run handle s).1 = .ok (some x) ∧ r = some x
  | unlink _ => r = none

/-- Either the operation has failed and nothing has changed in the directories, or it has changed what its name stands
for in its directory, and nothing else. -/
def Effect (op : DirOp) (s : OfsState) (ok : Bool) (v' : Vol) : Prop :=
  (ok = false ∧ ∀ d, s.vol.IsDir d → v'.names d = s.vol.names d) ∨
  ∃ d name t r, (op.place.run handle s).1 = .ok (some (d, name, t)) ∧ s.vol.Changes d name r v' ∧
    (ok = true → op.Gives s d name r v')

variable {s : OfsState}
variable {t : BitVec 8} {s₁ : OfsState} {path name : String} {d : Nat}

theorem place_eq {p : FsProg (Option (Nat × String × BitVec 8))} {r : Option (Nat × String × BitVec 8)}
    (h : p.run handle s = (.ok r, s₁)) : (p.run handle s).1 = .ok r := by rw [h]

/-- The name that a path is resolved to is not empty. -/
theorem locate_name (h : (locate path).run handle s = (.ok (some (d, name, t)), s₁)) : name ≠ "" := by
  unfold locate at h
  cases hp : parentAndName path with
  | none =>
    rw [hp] at h
    cases h
  | some pn =>
    rw [hp] at h
    rw [run_bind] at h
    rcases hr : (lookupPath pn.1).run handle s with ⟨r, s₂⟩
    change Cmd.bind _ _ s = _ at h
    rw [Cmd.bind, hr] at h
    cases r with
    | ok r =>
      cases r with
      | none => cases h
      | some x =>
        cases h
        exact parentAndName_ne hp
    | err e => cases h
    | panic e => cases h

/-- The operations that ask for the type of the directory. -/
theorem run_inDirectory (op : DirOp) {act : Nat → String → FsProg Bool} (hs : s.Sound) (ht : s.vol.Tidy)
    (hf : (inDirectory path act).Meets handle Fresh s)
    (hact : ∀ d name s₁, (locate path).run handle s = (.ok (some (d, name, itypeDir)), s₁) → s₁.Sound → s₁.vol = s.vol →
      (act d name).Meets handle Fresh s₁ → ((act d name).run handle).wp
        (fun ok s' => s'.Sound ∧ s'.vol.Tidy ∧ op.Effect s ok s'.vol) (fun _ => False) (fun _ => True) s₁) :
    ((inDirectory path act).run handle).wp (fun ok s' => s'.Sound ∧ s'.vol.Tidy ∧ op.Effect s ok s'.vol) (fun _ => False)
      (fun _ => True) s := by
  refine run_quiet_bind (quiet_locate path) hs hf fun r s₁ hr hs₁ hv hf₁ => ?_
  have hfail : s₁.Sound ∧ s₁.vol.Tidy ∧ op.Effect s false s₁.vol := by
    refine ⟨hs₁, by rw [hv]; exact ht, .inl ⟨rfl, fun d _ => by rw [hv]⟩⟩
  cases r with
  | none => exact (wp_pure _).mpr hfail
  | some x =>
    obtain ⟨d, name, t⟩ := x
    dsimp only at hf₁ ⊢
    by_cases hd : t = itypeDir
    · subst hd
      exact hact d name s₁ hr hs₁ hv hf₁
    · rw [if_neg hd]
      exact (wp_pure _).mpr hfail

/-- An outcome at its place is an effect. -/
theorem effect_of_outcome (op : DirOp) {s' : OfsState} {ok : Bool} {good : Option (Nat × BitVec 8) → Vol → Prop}
    (hplace : (op.place.run handle s).1 = .ok (some (d, name, t))) (hv : s₁.vol = s.vol)
    (hgood : ∀ r, good r s'.vol → op.Gives s d name r s'.vol) (h : s'.Sound ∧ s₁.vol.Outcome d name good ok s'.vol) :
    s'.Sound ∧ s'.vol.Tidy ∧ op.Effect s ok s'.vol := by
  obtain ⟨hs', htidy, r, hch, hr⟩ := h
  rw [hv] at hch
  exact ⟨hs', htidy, .inr ⟨d, name, t, r, hplace, hch, fun hok => hgood r (hr hok)⟩⟩

theorem step (op : DirOp) (hs : s.Sound) (ht : s.vol.Tidy) (hg : op.Good s) :
    (op.prog.run handle).wp (fun ok s' => s'.Sound ∧ s'.vol.Tidy ∧ op.Effect s ok s'.vol) (fun _ => False)
      (fun _ => True) s := by
  obtain ⟨hf, ha⟩ := hg
  cases op with
  | create path =>
    refine run_inDirectory (.create path) hs ht hf fun d name s₁ hr hs₁ hv hf₁ => ?_
    obtain ⟨hnew, hold⟩ := ha d name (place_eq hr)
    refine run_quiet_bind (quiet_lookupPath path) hs₁ hf₁ fun x s₂ hx hs₂ hv₂ hf₂ => ?_
    have hv' : s₂.vol = s.vol := hv₂.trans hv
    have hfound : ((found path).run handle s).1 = .ok x := by
      rw [found, run_bind, bind_ok hr, hx]
    rw [← hv'] at ht
    cases x with
    | none =>
      have hadd := hnew hfound
      rw [← hv'] at hadd
      refine wp_imp (run_volume hs₂ (ensures_createIn ht hadd (locate_name hr)) hf₂) (fun ok s' h => ?_)
      refine effect_of_outcome (.create path) (place_eq hr) hv' (fun r hgood => .inl ?_) h
      rw [← hv']
      exact hgood
    | some x =>
      obtain ⟨ino, t⟩ := x
      dsimp only at hf₂ ⊢
      by_cases hfile : t = itypeFile
      · subst hfile
        have htrunc := ensures_truncateFile ht ino fun hi => by
          rw [hv']
          exact hold ino hfound hi
        have hens : (fileTruncate ino >>= fun _ => pure true : FsProg Bool).ensures volume
            (fun ok v' => ok = true ∧ v'.Tidy ∧ ∀ d', s₂.vol.IsDir d' → v'.names d' = s₂.vol.names d') s₂.vol := by
          rw [ensures_bind]
          exact ensures_mono htrunc fun _ _ h => ⟨rfl, h⟩
        refine wp_imp (run_volume hs₂ hens hf₂) fun ok s' h => ?_
        obtain ⟨hs', _, htidy, hnames⟩ := h
        rw [hv'] at hnames
        exact ⟨hs', htidy, .inr ⟨d, name, _, _, place_eq hr, changes_of_same hnames d name, fun _ =>
          .inr ⟨⟨ino, hfound⟩, rfl⟩⟩⟩
      · rw [if_neg hfile]
        exact (wp_pure _).mpr ⟨hs₂, ht, .inl ⟨rfl, fun d _ => by rw [hv']⟩⟩
  | mkdir path =>
    refine run_inDirectory (.mkdir path) hs ht hf fun d name s₁ hr hs₁ hv hf₁ => ?_
    have hadd := ha d name (place_eq hr)
    rw [← hv] at hadd ht
    refine wp_imp (run_volume hs₁ (ensures_mkdirIn ht hadd (locate_name hr)) hf₁) (fun ok s' h => ?_)
    refine effect_of_outcome (.mkdir path) (place_eq hr) hv (fun r hgood => ?_) h
    rw [hv] at hgood
    exact hgood
  | symlink path target =>
    refine run_inDirectory (.symlink path target) hs ht hf fun d name s₁ hr hs₁ hv hf₁ => ?_
    have hadd := ha d name (place_eq hr)
    rw [← hv] at hadd ht
    refine wp_imp (run_volume hs₁ (ensures_symlinkIn ht hadd (locate_name hr) target) hf₁) fun ok s' h => ?_
    refine effect_of_outcome (.symlink path target) (place_eq hr) hv (fun r hgood => ?_) h
    rw [hv] at hgood
    exact hgood
  | link old new =>
    refine run_quiet_bind (quiet_lookupPath old) hs hf fun x s₁ hx hs₁ hv hf₁ => ?_
    cases x with
    | none => exact (wp_pure _).mpr ⟨hs₁, by rw [hv]; exact ht, .inl ⟨rfl, fun d _ => by rw [hv]⟩⟩
    | some x =>
      have hold : ((lookupPath old).run handle s).1 = .ok (some x) := by rw [hx]
      refine run_quiet_bind (quiet_locate new) hs₁ hf₁ fun r s₂ hr hs₂ hv₂ hf₂ => ?_
      have hv' : s₂.vol = s.vol := hv₂.trans hv
      cases r with
      | none => exact (wp_pure _).mpr ⟨hs₂, by rw [hv']; exact ht, .inl ⟨rfl, fun d _ => by rw [hv']⟩⟩
      | some r =>
        obtain ⟨d, name, t⟩ := r
        have hplace : ((link old new).place.run handle s).1 = .ok (some (d, name, t)) := by
          rw [place, run_bind, bind_ok hx, hr]
        have hadd := ha x hold d name t hplace
        rw [← hv'] at hadd ht
        refine wp_imp (run_volume hs₂ (ensures_linkIn ht hadd (locate_name hr)) hf₂) (fun ok s' h => ?_)
        exact effect_of_outcome (.link old new) hplace hv' (fun r hgood => ⟨x, hold, hgood⟩) h
  | unlink path =>
    refine run_inDirectory (.unlink path) hs ht hf fun d name s₁ hr hs₁ hv hf₁ => ?_
    have hkeep := ha d name (place_eq hr)
    rw [← hv] at hkeep ht
    refine wp_imp (run_volume hs₁ (ensures_unlinkIn ht hkeep) hf₁) fun ok s' h => ?_
    exact effect_of_outcome (.unlink path) (place_eq hr) hv (fun r hgood => hgood) h

end DirOp

/-- A directory behaves as a map: `dir_readall` returns it, without empty names and with no name twice, and
`dir_lookup_inode` returns what stands in it under a name. -/
structure OfsState.IsMap (s : OfsState) (d : Nat) : Prop where
  listed : ((dirReadall d).run handle s).1 = .ok (s.vol.entries d)
  nonempty : ∀ e ∈ s.vol.entries d, e.1 ≠ ""
  unique : ((s.vol.entries d).map (·.1)).Nodup
  found : ∀ name, ((dirLookupInode d name).run handle s).1 = .ok ((s.vol.entries d).lookup name)

theorem Vol.Tidy.isMap {s : OfsState} (h : s.vol.Tidy) (hs : s.Sound) {d : Nat} (hd : d < maxInodes)
    (ht : (s.vol.inodeAt d).itype = itypeDir) (hf : Fresh (.readInode d) s) : s.IsMap d := by
  have hok := h.dirs d hd ht
  refine ⟨?_, fun e he => ?_, Slots.nodup_listed hok.unique _, fun name => ?_⟩
  · obtain ⟨r, s', hrun, _, _, rfl⟩ := run_reading hs (reading_dirReadall h.owned hd ht hok)
      (fresh_of_blocks (dirReadall_blocks d) hf)
    rw [hrun]
  · obtain ⟨k, hk⟩ := (Slots.mem_listed (s.vol.ent_out d)).mp he
    unfold ent at hk
    split_ifs at hk
    obtain ⟨b, _, hb⟩ := Option.bind_eq_some_iff.mp hk
    exact name_ne_empty hb
  · obtain ⟨r, s', hrun, _, _, rfl⟩ := run_reading hs (reading_dirLookupInode h.owned hd ht hok name)
      (fresh_of_blocks (dirLookupInode_blocks d name) hf)
    rw [hrun]
    rfl

theorem Vol.Formatted.tidy {v : Vol} (h : v.Formatted) : v.Tidy := by
  refine ⟨h.owned, fun d hd _ => dirOk_of_size ?_⟩
  rw [h.inodes d hd]
  split_ifs <;> rfl

/-- Every directory is a map after the step, and the step has had its effect. -/
def DirOp.Behaves (op : DirOp) (s s' : OfsState) : Prop :=
  (∀ d < maxInodes, (s'.vol.inodeAt d).itype = itypeDir → Fresh (.readInode d) s' → s'.IsMap d) ∧
    ∃ ok, (op.prog.run handle s).1 = .ok ok ∧ op.Effect s ok s'.vol

/-- From a formatted volume on, in every run whose steps meet the condition, the directories behave as maps. -/
theorem directories_are_maps {dev : Dev} (hok : dev.faulty = false) (hup : dev.left = none) (total : Nat) {ops : List DirOp}
    (hgood : Along DirOp.exec (fun op s _ => op.Good s) ops (OfsState.mkfs { dev := dev, totalBlocks := total }).2) :
    Along DirOp.exec (fun op s s' => op.Behaves s s') ops (OfsState.mkfs { dev := dev, totalBlocks := total }).2 := by
  obtain ⟨s₀, hmkfs, hsound, _, _, _, hformat⟩ :=
    OfsState.mkfs_formatted (s := { dev := dev, totalBlocks := total }) hok hup rfl
  rw [hmkfs] at hgood ⊢
  refine Along.of_inv (fun s => s.Sound ∧ s.vol.Tidy) (fun op s hs hg => ?_) ⟨hsound, hformat.tidy⟩ hgood
  have hstep := op.step hs.1 hs.2 hg
  rw [DirOp.exec, endsIn, wp_bind]
  rcases hrun : op.prog.run handle s with ⟨r, s'⟩
  rw [wp_of_eq hrun] at hstep ⊢
  cases r with
  | ok ok =>
    obtain ⟨hs', htidy, heff⟩ := hstep
    exact (wp_pure _).mpr ⟨⟨hs', htidy⟩, fun d hd ht hf => htidy.isMap hs' hd ht hf, ok, by rw [hrun], heff⟩
  | err e => exact hstep.elim
  | panic e => trivial

/-! ## Two runs -/

deriving instance DecidableEq for RawInode

instance : (q : Request) → (s : OfsState) → Decidable (Fresh q s)
  | .readInode ino, s =>
    inferInstanceAs (Decidable (ino < maxInodes → (OfsState.readInode ino s).1 = .ok (some (s.vol.inodeAt ino))))
  | .readBlk _, _ | .writeBlk _ _, _ | .invalidate _, _ | .commitTxn, _ | .totalBlocks, _ | .panic _, _ => isTrue trivial

/-- A new volume with a directory in its root. -/
theorem directories_are_maps_mkdir : ((DirOp.mkdir "/a").exec formatted).2.IsMap rootInode := by
  have hrun : (DirOp.mkdir "/a").exec formatted = (.ok (), ((DirOp.mkdir "/a").exec formatted).2) :=
    eq_of_fst (by decide +kernel)
  have hplace : ((locate "/a").run handle formatted).1 = .ok (some (rootInode, "a", itypeDir)) := by decide +kernel
  have hgood : Along DirOp.exec (fun op s _ => op.Good s) [.mkdir "/a"] formatted := by
    rw [along_cons hrun]
    refine ⟨⟨by decide +kernel, fun d name h => ?_⟩, trivial⟩
    cases hplace.symm.trans h
    exact ⟨⟨by decide, by decide +kernel, by decide +kernel⟩, by decide +kernel⟩
  rw [← formatted_eq] at hgood
  have hall := directories_are_maps rfl rfl 2048 hgood
  rw [formatted_eq, along_cons hrun] at hall
  exact hall.1.1 rootInode (by decide) (by decide +kernel) (by decide +kernel)

/-- The same directory made twice is there twice. -/
theorem mkdir_twice : ((runAll DirOp.exec [.mkdir "/a", .mkdir "/a"] formatted).map fun s =>
    match ((dirReadall rootInode).run handle s).1 with
    | .ok list => list.map (·.1)
    | _ => []) = some ["a", "a"] := by
  decide +kernel

end OpenV.Vfs
