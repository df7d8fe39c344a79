import OpenV.Vfs.DirReads

/- The operations on paths of the block file system (`user/vfs-server/src/main.rs`, the
   branches for paths under `/mnt`; a path here is what follows `/mnt`). A path is walked
   from the root directory, a symbolic link is replaced by its target and the walk starts
   again, at most eight times. -/
namespace OpenV.Vfs

/-! ## Paths -/

/-- `trim_matches('/')`. -/
def trimSlashes (cs : List Char) : List Char := ((cs.dropWhile (· = '/')).reverse.dropWhile (· = '/')).reverse

/-- The components of a path. A path of slashes has none. -/
def pathComponents (path : String) : List String :=
  (((trimSlashes path.toList).splitOn '/').filter (· ≠ [])).map String.ofList

/-- `parent_and_name`. -/
def parentAndName (path : String) : Option (String × String) :=
  -- trimmed at the end, and read from there
  let rev := path.toList.reverse.dropWhile (· = '/')
  let name := (rev.takeWhile (· ≠ '/')).reverse
  match rev.dropWhile (· ≠ '/') with
  | [] => none
  | _ :: before =>
    if name = [] then none
    else some (if before = [] then "/" else String.ofList before.reverse, String.ofList name)

/-- The path in which the component after `seen` is a link to `target`. -/
def linkedPath (seen : List String) (target : String) (rest : List String) : String :=
  let base :=
    if target.toList.head? = some '/' then target
    else seen.foldl (fun path comp => path ++ "/" ++ comp) "" ++ "/" ++ target
  rest.foldl (fun path comp => (if path.toList.getLast? = some '/' then path else path ++ "/") ++ comp) base

/-- The target of a symbolic link. -/
def readLink (ino : Nat) : FsProg (Option String) := do
  match ← readInode ino with
  | none => pure none
  | some info =>
    match ← fileRead ino 0 { len := info.size.toNat, get := fun _ => 0#8 } with
    | .error _ => pure none
    | .ok out => pure (fromUtf8 ((List.range info.size.toNat).map out.get))

/-- The loop of `lookup_path_depth` at `cur`, with the components `seen` before it. The path behind a link is resolved
by `again`, if there may be one more link. -/
def walkPath (again : Option (String → FsProg (Option (Nat × BitVec 8)))) (followLast : Bool) :
    Nat × BitVec 8 → List String → List String → FsProg (Option (Nat × BitVec 8))
  | cur, _, [] => pure (some cur)
  | cur, seen, comp :: rest => do
    if cur.2 ≠ itypeDir then pure none
    else
      match ← dirLookupInode cur.1 comp with
      | none => pure none
      | some next =>
        if next.2 = itypeSymlink ∧ (followLast = true ∨ rest ≠ []) then
          match again with
          | none => pure none
          | some again =>
            match ← readLink next.1 with
            | none => pure none
            | some target => again (linkedPath seen target rest)
        else walkPath again followLast next (seen ++ [comp]) rest

/-- `lookup_path_depth`. -/
def lookupPathDepth : Nat → String → Bool → FsProg (Option (Nat × BitVec 8))
  | 0, path, followLast => walkPath none followLast (rootInode, itypeDir) [] (pathComponents path)
  | depth + 1, path, followLast =>
    walkPath (some fun path => lookupPathDepth depth path followLast) followLast (rootInode, itypeDir) []
      (pathComponents path)

/-- `lookup_path`. -/
def lookupPath (path : String) : FsProg (Option (Nat × BitVec 8)) := lookupPathDepth 8 path true

/-- The directory that a path names an entry of, with the name and the type under which the directory was found. -/
def locate (path : String) : FsProg (Option (Nat × String × BitVec 8)) :=
  match parentAndName path with
  | none => pure none
  | some (parent, name) => do
    match ← lookupPath parent with
    | none => pure none
    | some (dir, etype) => pure (some (dir, name, etype))

/-! ## Operations -/

/-- `mkdir` in a directory. -/
def mkdirIn (dir : Nat) (name : String) : FsProg Bool := do
  match ← createInode itypeDir with
  | none => pure false
  | some child =>
    if ← initDir child dir then
      if ← dirAddEntry dir name child itypeDir then pure true
      else do
        fileTruncate child
        freeInode child
        pure false
    else do
      freeInode child
      pure false

/-- The end of `create`, where there is no such file. -/
def createIn (dir : Nat) (name : String) : FsProg Bool := do
  match ← createInode itypeFile with
  | none => pure false
  | some child =>
    if ← dirAddEntry dir name child itypeFile then pure true
    else do
      freeInode child
      pure false

/-- `OP_SYMLINK` in a directory. -/
def symlinkIn (dir : Nat) (name target : String) : FsProg Bool := do
  match ← createInode itypeSymlink with
  | none => pure false
  | some child =>
    let bytes := nameBytes target
    match ← fileWrite child 0 { len := bytes.length, get := fun i => bytes.getD i 0#8 } with
    | .error _ => do
      freeInode child
      pure false
    | .ok _ =>
      if ← dirAddEntry dir name child itypeSymlink then pure true
      else do
        freeInode child
        pure false

/-- What an operation does in the directory of its path, if that is one. -/
def inDirectory (path : String) (act : Nat → String → FsProg Bool) : FsProg Bool := do
  match ← locate path with
  | none => pure false
  | some (dir, name, etype) => if etype = itypeDir then act dir name else pure false

/-- `mkdir`. -/
def mkdir (path : String) : FsProg Bool := inDirectory path mkdirIn

/-- `create`. -/
def create (path : String) : FsProg Bool := inDirectory path fun dir name => do
  match ← lookupPath path with
  | some (child, ctype) =>
    if ctype = itypeFile then do
      fileTruncate child
      pure true
    else pure false
  | none => createIn dir name

/-- `OP_SYMLINK`. -/
def symlink (path target : String) : FsProg Bool := inDirectory path fun dir name => symlinkIn dir name target

/-- `OP_LINK`. The directory is not asked for its type. -/
def link (old new : String) : FsProg Bool := do
  match ← lookupPath old with
  | none => pure false
  | some (child, etype) =>
    match ← locate new with
    | none => pure false
    | some (dir, name, _) => dirLinkEntry dir name child etype

/-- `unlink`. -/
def unlink (path : String) : FsProg Bool := inDirectory path dirUnlink

/-! ## Resolving a path changes nothing -/

/-- The request reads or panics. -/
def Request.Quiet : Request → Prop
  | readBlk _ => True
  | readInode _ => True
  | panic _ => True
  | _ => False

theorem quiet_of_reads {α : Type} {p : FsProg α} (hp : p.Within Request.Reads) : p.Within Request.Quiet :=
  hp.mono fun q hq => by cases q <;> trivial

theorem ensures_quiet {α : Type} {p : FsProg α} (hp : p.Within Request.Quiet) (v : Vol) :
    p.ensures volume (fun _ v' => v' = v) v := by
  induction p with
  | done a => rfl
  | ask q k ih =>
    obtain ⟨hq, hk⟩ := hp
    cases q with
    | readBlk | readInode =>
      refine ⟨trivial, fun r v' hr => ?_⟩
      rw [hr.1]
      exact ih r (hk r)
    | panic msg => exact ⟨trivial, fun r => nomatch r⟩
    | _ => exact hq.elim

/-- The request reads a block or panics. -/
def Request.Blocks : Request → Prop
  | readBlk _ => True
  | panic _ => True
  | _ => False

theorem blocks_direntName (buf : Block) (off len : Nat) : (direntName buf off len).Within Request.Blocks :=
  .ite (fun _ => ⟨trivial, fun r => nomatch r⟩) fun _ => .pure _

/-- `dir_lookup_inode` reads one inode, at its start. -/
theorem dirLookupInode_blocks (dir : Nat) (name : String) :
    ∃ k, dirLookupInode dir name = readInode dir >>= k ∧ ∀ r, (k r).Within Request.Blocks := by
  have hscan : ∀ buf total first, (scanBlock buf total first (nameBytes name) fun _ de =>
      (pure (some (some (de.inode, de.etype))) : FsProg (Option (Option (Nat × BitVec 8))))).Within Request.Blocks := by
    intro buf total first
    refine .findSome (fun slot => .early fun _ => .early fun _ => ?_) _
    exact .bind (.early fun _ => .bind (blocks_direntName ..) fun _ => .pure _) fun _ =>
      .early fun _ => .pure _
  refine ⟨_, rfl, fun inode => ?_⟩
  cases inode with
  | none => exact .pure _
  | some inode =>
    refine .early fun _ => .early fun _ => .bind (.findSome (fun block => ?_) _) fun _ => .pure _
    refine .bind (within_getFileBlock (fun _ => trivial) (by nofun) block) fun res => ?_
    obtain ⟨_ | blk, _⟩ := res
    · exact .pure _
    · exact .bindSome (.request trivial) fun buf => hscan buf _ _

/-- `dir_readall` reads one inode, at its start. -/
theorem dirReadall_blocks (dir : Nat) : ∃ k, dirReadall dir = readInode dir >>= k ∧ ∀ r, (k r).Within Request.Blocks := by
  have hslots : ∀ buf total first slots, (readSlots buf total first slots).Within Request.Blocks := by
    intro buf total first slots
    induction slots with
    | nil => exact .pure _
    | cons slot rest ih =>
      refine .early fun _ => .ite (fun _ => ih) fun _ => .bind (blocks_direntName ..) fun name =>
        .bind ih fun more => ?_
      cases fromUtf8 name <;> exact .pure _
  have hblocks : ∀ inode blocks, (readBlocks inode dir blocks).Within Request.Blocks := by
    intro inode blocks
    induction blocks with
    | nil => exact .pure _
    | cons block rest ih =>
      refine .bind (within_getFileBlock (fun _ => trivial) (by nofun) block) fun res => ?_
      obtain ⟨_ | blk, _⟩ := res
      · exact .pure _
      · exact .bindSome (.request trivial) fun buf => .bind (hslots ..) fun _ => .bind ih fun _ => .pure _
  refine ⟨_, rfl, fun inode => ?_⟩
  cases inode with
  | none => exact .pure _
  | some inode => exact .early fun _ => hblocks ..

/-- A program that reads one inode and then blocks only needs that inode to be what was last written. -/
theorem fresh_of_blocks {α : Type} {p : FsProg α} {ino : Nat} {s : OfsState}
    (hp : ∃ k, p = readInode ino >>= k ∧ ∀ r, (k r).Within Request.Blocks) (h : Fresh (.readInode ino) s) :
    p.Meets handle Fresh s := by
  obtain ⟨k, rfl, hk⟩ := hp
  refine Prog.meets_ask h fun r s' => Prog.Within.meets (fun q s hq => ?_) (hk r) s'
  cases q <;> trivial

theorem quiet_dirLookupInode (dir : Nat) (name : String) : (dirLookupInode dir name).Within Request.Quiet := by
  obtain ⟨k, hk, hblocks⟩ := dirLookupInode_blocks dir name
  rw [hk]
  refine .bind (.request trivial) fun r => (hblocks r).mono fun q hq => ?_
  cases q <;> trivial

theorem quiet_readLink (ino : Nat) : (readLink ino).Within Request.Quiet := by
  refine .bindSome (.request trivial) fun info => ?_
  refine .bind (quiet_of_reads (reads_fileRead ..)) fun r => ?_
  cases r <;> exact .pure _

theorem quiet_walkPath {again : Option (String → FsProg (Option (Nat × BitVec 8)))} {followLast : Bool}
    (hagain : ∀ f, again = some f → ∀ path, (f path).Within Request.Quiet) (rest : List String) :
    ∀ cur seen, (walkPath again followLast cur seen rest).Within Request.Quiet := by
  induction rest with
  | nil => exact fun _ _ => .pure _
  | cons comp rest ih =>
    intro cur seen
    refine .early fun _ => .bindSome (quiet_dirLookupInode ..) fun next => ?_
    refine .ite (fun _ => ?_) fun _ => ih ..
    cases again with
    | none => exact .pure _
    | some again =>
      exact .bindSome (quiet_readLink _) fun target => hagain again rfl _

theorem quiet_lookupPath (path : String) : (lookupPath path).Within Request.Quiet := by
  have hdepth : ∀ depth path, (lookupPathDepth depth path true).Within Request.Quiet := by
    intro depth
    induction depth with
    | zero => exact fun path => quiet_walkPath (by nofun) ..
    | succ depth ih =>
      refine fun path => quiet_walkPath (fun f hf path => ?_) ..
      cases hf
      exact ih path
  exact hdepth 8 path

/-- Only the components of a path count. -/
theorem lookupPath_congr {p q : String} (h : pathComponents p = pathComponents q) : lookupPath p = lookupPath q := by
  unfold lookupPath
  rw [lookupPathDepth, lookupPathDepth, h]

-- paths are never walked in a proof
attribute [irreducible] lookupPath

theorem quiet_locate (path : String) : (locate path).Within Request.Quiet := by
  unfold locate
  cases parentAndName path with
  | none => exact .pure _
  | some pn =>
    refine .bind (quiet_lookupPath _) fun r => ?_
    cases r <;> exact .pure _

/-- The name that a path ends in is not empty. -/
theorem parentAndName_ne {path parent name : String} (h : parentAndName path = some (parent, name)) : name ≠ "" := by
  unfold parentAndName at h
  dsimp only at h
  split at h
  · cases h
  · split_ifs at h with hne
    all_goals
      cases h
      intro he
      refine hne ?_
      rw [← String.toList_ofList (l := List.reverse _), he]
      rfl

end OpenV.Vfs
