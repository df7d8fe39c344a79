import OpenV.FileServer.Routing

/- The block file system behind `/mnt` (`user/vfs-server/src/main.rs`, the branches for
   paths under `/mnt`), as the file server uses it: the operations of `BlockFs` are
   programs on the volume, run by `handle`. They resolve a path by its components, so they
   do not tell apart spellings that have the same ones. -/
namespace OpenV.FileServer

open List

open OpenV.Vfs (FsProg OfsState handle lookupPath lookupPath_congr pathComponents parentAndName locate inDirectory
  itypeDir itypeFile itypeSymlink trimSlashes)

/-! ## Operations -/

/-- `rename`, from the texts of the paths on. -/
def ofsRename (old new : String) : FsProg Bool :=
  match parentAndName old, parentAndName new with
  | some (oldParent, oldName), some (newParent, newName) => do
    match ← lookupPath oldParent with
    | none => pure false
    | some (dir, _) =>
      match ← lookupPath newParent with
      | none => pure false
      | some (newDir, _) =>
        match ← Vfs.dirLookupInode dir oldName with
        | none => pure false
        | some (child, etype) =>
          match ← Vfs.dirLookupInode newDir newName with
          | some (target, _) =>
            if target = child then pure true
            else if ← Vfs.dirUnlink newDir newName then move dir oldName newDir newName child etype
            else pure false
          | none => move dir oldName newDir newName child etype
  | _, _ => pure false
where
  /-- the entry is added in one place and removed in the other -/
  move (dir : Nat) (oldName : String) (newDir : Nat) (newName : String) (child : Nat) (etype : BitVec 8) :
      FsProg Bool := do
    if ← Vfs.dirLinkEntry newDir newName child etype then Vfs.dirUnlink dir oldName else pure false

/-- `Vfs::readdir`. -/
def ofsReaddir (path : String) : FsProg (Option (List String)) := do
  match ← lookupPath path with
  | none => pure none
  | some (dir, etype) =>
    if etype = itypeDir then return some ((← Vfs.dirReadall dir).map (·.1)) else pure none

/-- `Vfs::stat`. -/
def ofsStat (path : String) : FsProg (Option (Bool × Nat)) := do
  match ← lookupPath path with
  | none => pure none
  | some (ino, etype) =>
    if etype = itypeDir then pure (some (true, 0))
    else return (← Vfs.readInode ino).map fun info => (false, info.size.toNat)

/-- `OP_READLINK`. -/
def ofsReadlink (path : String) : FsProg (Option (List (BitVec 8))) := do
  match ← lookupPath path with
  | none => pure none
  | some (ino, etype) =>
    if etype ≠ itypeSymlink then pure none
    else
      match ← Vfs.readInode ino with
      | none => pure none
      | some info =>
        match ← Vfs.fileRead ino 0 { len := info.size.toNat, get := fun _ => 0#8 } with
        | .error _ => pure none
        | .ok out => pure (some ((range info.size.toNat).map out.get))

/-- `OP_FTRUNCATE`. -/
def ofsTruncate (path : String) : FsProg Bool := do
  match ← lookupPath path with
  | none => pure false
  | some (ino, etype) =>
    if etype ≠ itypeFile then pure false
    else do
      Vfs.fileTruncate ino
      pure true

/-- The mounted volume. -/
def ofs : BlockFs OfsState where
  find path := (do return some (← lookupPath path).isSome : FsProg (Option Bool)).run handle
  mkdir path := (Vfs.mkdir path).run handle
  create path := (Vfs.create path).run handle
  unlink path := (Vfs.unlink path).run handle
  rename old new := (ofsRename old new).run handle
  symlink path target := (Vfs.symlink path target).run handle
  link old new := (OpenV.Vfs.link old new).run handle
  readdir path := (ofsReaddir path).run handle
  stat path := (ofsStat path).run handle
  readlink path := (ofsReadlink path).run handle
  truncate path := (ofsTruncate path).run handle

/-! ## Spellings -/

/-- The parts between slashes that are not empty. -/
def parts (cs : List Char) : List (List Char) := (cs.splitOn '/').filter (· ≠ [])

theorem parts_append_slash (u w : List Char) : parts (u ++ '/' :: w) = parts u ++ parts w := by
  unfold parts
  rw [splitOn_append_cons_self, filter_append]

theorem parts_noSlash {w : List Char} (hw : '/' ∉ w) (hne : w ≠ []) : parts w = [w] := by
  unfold parts
  rw [splitOn_eq_singleton hw]
  simp [hne]

theorem parts_nil : parts [] = [] := rfl

/-- Slashes in front do not count. -/
theorem parts_dropWhile (cs : List Char) : parts (cs.dropWhile (· = '/')) = parts cs := by
  induction cs with
  | nil => rfl
  | cons c cs ih =>
    by_cases hc : c = '/'
    · subst hc
      rw [dropWhile_cons_of_pos (by simp), ih, ← nil_append ('/' :: cs), parts_append_slash]
      rfl
    · rw [dropWhile_cons_of_neg (by simpa using hc)]

/-- Nor do those at the end. -/
theorem parts_trimEnd (cs : List Char) : parts (trimEnd cs) = parts cs := by
  unfold trimEnd
  induction cs using reverseRecOn with
  | nil => rfl
  | append_singleton cs c ih =>
    rw [reverse_append, reverse_singleton, singleton_append]
    by_cases hc : c = '/'
    · subst hc
      rw [dropWhile_cons_of_pos (by simp), ih, parts_append_slash, parts_nil, append_nil]
    · rw [dropWhile_cons_of_neg (by simpa using hc), reverse_cons, reverse_reverse]

theorem pathComponents_eq (path : String) : pathComponents path = (parts path.toList).map String.ofList := by
  have htrim : parts (trimSlashes path.toList) = parts path.toList := by
    show parts (trimEnd (path.toList.dropWhile (· = '/'))) = _
    rw [parts_trimEnd, parts_dropWhile]
  rw [← htrim]
  rfl

/-- A text without parts begins with a slash. -/
theorem head_of_parts_nil {u : List Char} (hu : u ≠ []) (h : parts u = []) : u.head? = some '/' := by
  by_cases hm : '/' ∈ u
  · obtain ⟨before, after, rfl, hbefore⟩ := eq_append_cons_of_mem hm
    by_cases hne : before = []
    · rw [hne]
      rfl
    · rw [parts_append_slash, parts_noSlash hbefore hne] at h
      cases h
  · rw [parts_noSlash hm hu] at h
    cases h

theorem parentAndName_trimEnd (path : String) :
    parentAndName path = parentAndName (String.ofList (trimEnd path.toList)) := by
  unfold parentAndName trimEnd
  rw [String.toList_ofList, reverse_reverse, dropWhile_idempotent]

theorem head_trimEnd {cs : List Char} (h : trimEnd cs ≠ []) : (trimEnd cs).head? = cs.head? := by
  have hsplit : trimEnd cs ++ (cs.reverse.takeWhile (· = '/')).reverse = cs := by
    unfold trimEnd
    rw [← reverse_append, takeWhile_append_dropWhile, reverse_reverse]
  conv_rhs => rw [← hsplit, head?_append_of_ne_nil _ h]

/-- What is left after trimming ends in a part. -/
theorem trimEnd_cases (cs : List Char) : '/' ∉ trimEnd cs ∨ ∃ u w, trimEnd cs = u ++ '/' :: w ∧ '/' ∉ w ∧ w ≠ [] := by
  by_cases hm : '/' ∈ trimEnd cs
  · right
    obtain ⟨w, u, hrev, hw⟩ := eq_append_cons_of_mem (mem_reverse.mpr hm)
    refine ⟨u.reverse, w.reverse, ?_, fun h => hw (mem_reverse.mp h), ?_⟩
    · rw [← reverse_reverse (trimEnd cs), hrev]
      simp
    · intro hnil
      have hnil : w = [] := reverse_eq_nil_iff.mp hnil
      have hhead := head?_dropWhile_not (fun c => decide (c = '/')) cs.reverse
      unfold trimEnd at hrev
      rw [reverse_reverse] at hrev
      rw [hrev, hnil] at hhead
      simp at hhead
  · exact .inl hm

/-- What `parent_and_name` makes of the components. -/
theorem parentAndName_cases (path : String) : (parentAndName path = none ∧
      (pathComponents path = [] ∨ (pathComponents path).length = 1 ∧ path.toList.head? ≠ some '/')) ∨
    ∃ parent name, parentAndName path = some (parent, name) ∧ pathComponents path = pathComponents parent ++ [name] ∧
      (pathComponents parent = [] → path.toList.head? = some '/') := by
  have hparts : pathComponents path = (parts (trimEnd path.toList)).map String.ofList := by
    rw [pathComponents_eq, parts_trimEnd]
  rw [parentAndName_trimEnd, hparts]
  rcases trimEnd_cases path.toList with hno | ⟨u, w, hbody, hw, hne⟩
  · refine .inl ⟨parentAndName_noSlash hno, ?_⟩
    by_cases hnil : trimEnd path.toList = []
    · exact .inl (by rw [hnil]; rfl)
    · refine .inr ⟨by rw [parts_noSlash hno hnil]; rfl, ?_⟩
      rw [← head_trimEnd hnil]
      exact fun h => hno (mem_of_mem_head? (by rw [h]; rfl))
  · right
    have hhead : (u ++ '/' :: w).head? = path.toList.head? := by
      rw [← hbody, head_trimEnd (by rw [hbody]; simp)]
    refine ⟨_, _, (congrArg (fun cs => parentAndName (String.ofList cs)) hbody).trans (parentAndName_split hw hne), ?_, ?_⟩
    · rw [hbody, parts_append_slash, parts_noSlash hw hne, map_append, pathComponents_eq]
      by_cases hu : u = []
      · rw [hu]
        rfl
      · rw [if_neg hu, String.toList_ofList]
        rfl
    · intro hparent
      rw [← hhead]
      by_cases hu : u = []
      · rw [hu]
        rfl
      · rw [if_neg hu, pathComponents_eq, String.toList_ofList, map_eq_nil_iff] at hparent
        rw [head?_append_of_ne_nil _ hu, head_of_parts_nil hu hparent]

section
variable {p q : String}

theorem locate_congr (h : spelling p = spelling q) : locate p = locate q := by
  have hcomps : pathComponents p = pathComponents q := congrArg Prod.fst h
  have hhead : p.toList.head? = some '/' ↔ q.toList.head? = some '/' :=
    decide_eq_decide.mp (congrArg Prod.snd h)
  unfold locate
  rcases parentAndName_cases p with ⟨hp, hp'⟩ | ⟨pp, np, hp, hp', hps⟩
  · rcases parentAndName_cases q with ⟨hq, -⟩ | ⟨pq, nq, hq, hq', hqs⟩
    · rw [hp, hq]
    · -- the components of `q` are at least one, and exactly one only behind a slash
      rw [hcomps, hq'] at hp'
      rcases hp' with hp' | ⟨hlen, hno⟩
      · simp at hp'
      · refine absurd (hhead.mpr (hqs ?_)) hno
        simpa using hlen
  · rcases parentAndName_cases q with ⟨hq, hq'⟩ | ⟨pq, nq, hq, hq', hqs⟩
    · rw [← hcomps, hp'] at hq'
      rcases hq' with hq' | ⟨hlen, hno⟩
      · simp at hq'
      · refine absurd (hhead.mp (hps ?_)) hno
        simpa using hlen
    · rw [hp', hq'] at hcomps
      obtain ⟨hparent, hname⟩ := append_inj' hcomps rfl
      obtain ⟨rfl⟩ := singleton_inj.mp hname
      rw [hp, hq]
      dsimp only
      rw [lookupPath_congr hparent]

theorem inDirectory_congr (h : spelling p = spelling q) (act : Nat → String → FsProg Bool) :
    inDirectory p act = inDirectory q act := by
  unfold inDirectory
  rw [locate_congr h]

/-- The block file system does not tell spellings apart. -/
theorem respects_ofs : ofs.Respects := by
  have hlookup : ∀ p q, spelling p = spelling q → lookupPath p = lookupPath q :=
    fun p q h => lookupPath_congr (congrArg Prod.fst h)
  refine ⟨fun p q h => ?_, fun p q h => ?_, fun p q h => ?_, fun p q h => ?_, fun p q h => ?_, fun p q h => ?_⟩
  · show Prog.run handle _ = Prog.run handle _
    rw [hlookup p q h]
  · exact congrArg (Prog.run handle) (inDirectory_congr h _)
  · refine congrArg (Prog.run handle) ?_
    unfold Vfs.create
    rw [inDirectory_congr h, hlookup p q h]
  · exact congrArg (Prog.run handle) (inDirectory_congr h _)
  · refine congrArg (Prog.run handle) ?_
    unfold ofsReaddir
    rw [hlookup p q h]
  · refine congrArg (Prog.run handle) ?_
    unfold ofsStat
    rw [hlookup p q h]

end
end OpenV.FileServer
