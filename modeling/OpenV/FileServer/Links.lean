import OpenV.FileServer.Block

/- Paths through symbolic links (`lookup_path_depth` of `user/vfs-server/src/main.rs`). The
   code writes the target of a link into the path and starts again at the root. Resolving
   component by component goes on in the directory that has the link, or at the root if the
   target is absolute. In a file system that does not change the two agree: the components
   before the link lead to the same directory again, with no link among them. -/
namespace OpenV.FileServer
open OpenV.Vfs (FsProg pathComponents linkedPath itypeDir itypeSymlink)

/-- An inode and the type in its entry. -/
abbrev Node := Nat × BitVec 8

/-- What a path is resolved with: `root_inode_number`, `dir_lookup_inode_dispatch`, and the text
of a link, by `inode_info` and `file_read`. -/
structure LinkOps (m : Type → Type) where
  root : Nat
  entry : Nat → String → m (Option Node)
  target : Nat → m (Option String)

/-- A link is followed, unless it is the last component and those are not. -/
abbrev Followed (followLast : Bool) (next : Node) (rest : List String) : Prop :=
  next.2 = itypeSymlink ∧ (followLast = true ∨ rest ≠ [])

namespace LinkOps

section
variable {m : Type → Type} [Monad m] (fs : LinkOps m)

/-- The loop of `lookup_path_depth`. -/
def walk (again : Option (String → m (Option Node))) (followLast : Bool) :
    Node → List String → List String → m (Option Node)
  | cur, _, [] => pure (some cur)
  | cur, seen, comp :: rest => do
    if cur.2 ≠ itypeDir then pure none
    else
      match ← fs.entry cur.1 comp with
      | none => pure none
      | some next =>
        if Followed followLast next rest then
          match again with
          | none => pure none
          | some again =>
            match ← fs.target next.1 with
            | none => pure none
            | some target => again (linkedPath seen target rest)
        else walk again followLast next (seen ++ [comp]) rest

def lookupPathDepth : Nat → String → Bool → m (Option Node)
  | 0, path, followLast => fs.walk none followLast (fs.root, itypeDir) [] (pathComponents path)
  | depth + 1, path, followLast =>
    fs.walk (some fun path => lookupPathDepth depth path followLast) followLast (fs.root, itypeDir) [] (pathComponents path)

end

/-- The file system of `blockfs.rs`. -/
def ofs : LinkOps FsProg := ⟨Vfs.rootInode, Vfs.dirLookupInode, Vfs.readLink⟩

theorem ofs_walk (again : Option (String → FsProg (Option Node))) (followLast : Bool) (rest : List String) :
    ∀ cur seen, ofs.walk again followLast cur seen rest = Vfs.walkPath again followLast cur seen rest := by
  induction rest with
  | nil => exact fun _ _ => rfl
  | cons comp rest ih =>
    intro cur seen
    rw [walk, Vfs.walkPath]
    refine ite_congr rfl (fun _ => rfl) fun _ => congrArg (_ >>= ·) (funext fun next => ?_)
    cases next with
    | none => rfl
    | some next =>
      refine ite_congr rfl (fun _ => ?_) fun _ => ih ..
      cases again with
      | none => rfl
      | some again => exact congrArg (_ >>= ·) (funext fun target => by cases target <;> rfl)

/-- There the loop is the one of the operations on paths. -/
theorem ofs_lookupPathDepth (depth : Nat) (path : String) (followLast : Bool) :
    ofs.lookupPathDepth depth path followLast = Vfs.lookupPathDepth depth path followLast := by
  induction depth generalizing path with
  | zero => exact ofs_walk ..
  | succ depth ih =>
    rw [lookupPathDepth, Vfs.lookupPathDepth, ofs_walk]
    simp only [ih]
    rfl

end LinkOps

/-- A file system that does not change: the entries of its directories and the targets of its links. -/
structure DirGraph where
  root : Nat
  entry : Nat → String → Option Node
  target : Nat → Option String

namespace DirGraph

def ops (g : DirGraph) : LinkOps Id := ⟨g.root, g.entry, g.target⟩

/-- Where the target of a link found in `cur` is resolved from. -/
def base (g : DirGraph) (cur : Node) (target : String) : Node :=
  if target.toList.head? = some '/' then (g.root, itypeDir) else cur

/-- Component by component, a path leads from `cur` to `r` by way of at most `n` links. -/
inductive Resolves (g : DirGraph) (followLast : Bool) : Nat → Node → List String → Node → Prop where
  | done (n : Nat) (cur : Node) : Resolves g followLast n cur [] cur
  | step {n : Nat} {cur next r : Node} {comp : String} {rest : List String} (hdir : cur.2 = itypeDir)
      (hentry : g.entry cur.1 comp = some next) (hstay : ¬Followed followLast next rest)
      (h : Resolves g followLast n next rest r) : Resolves g followLast n cur (comp :: rest) r
  | link {n : Nat} {cur next r : Node} {comp target : String} {rest : List String} (hdir : cur.2 = itypeDir)
      (hentry : g.entry cur.1 comp = some next) (hlink : Followed followLast next rest)
      (htarget : g.target next.1 = some target)
      (h : Resolves g followLast n (g.base cur target) (pathComponents target ++ rest) r) :
      Resolves g followLast (n + 1) cur (comp :: rest) r

end DirGraph

/-! ## Components -/

/-- A component of a path. -/
def IsComponent (comp : String) : Prop := comp.toList ≠ [] ∧ '/' ∉ comp.toList

theorem pathComponents_isComponent {path comp : String} (h : comp ∈ pathComponents path) : IsComponent comp := by
  rw [pathComponents_eq, List.mem_map] at h
  obtain ⟨cs, hcs, rfl⟩ := h
  obtain ⟨hcs, hne⟩ := List.mem_filter.mp hcs
  rw [IsComponent, String.toList_ofList]
  exact ⟨of_decide_eq_true hne, noSlash_of_mem_splitOn hcs⟩

theorem pathComponents_slash (p q : String) : pathComponents (p ++ "/" ++ q) = pathComponents p ++ pathComponents q := by
  rw [pathComponents_eq, pathComponents_eq, pathComponents_eq, ← List.map_append, ← parts_append_slash]
  simp

theorem pathComponents_component (path : String) {comp : String} (h : IsComponent comp) :
    pathComponents (path ++ "/" ++ comp) = pathComponents path ++ [comp] := by
  rw [pathComponents_slash, pathComponents_eq comp, parts_noSlash h.2 h.1]
  simp

/-- A slash is put in between if there is none. -/
theorem pathComponents_push (path : String) {comp : String} (h : IsComponent comp) :
    pathComponents ((if path.toList.getLast? = some '/' then path else path ++ "/") ++ comp) =
      pathComponents path ++ [comp] := by
  split
  · rename_i hlast
    obtain ⟨u, hu⟩ := List.getLast?_eq_some_iff.mp hlast
    rw [pathComponents_eq, pathComponents_eq, String.toList_append, hu, List.append_assoc, List.singleton_append,
      parts_append_slash, parts_append_slash, parts_noSlash h.2 h.1]
    simp [parts_nil]
  · exact pathComponents_component path h

theorem pathComponents_foldl {push : String → String → String}
    (hpush : ∀ path comp, IsComponent comp → pathComponents (push path comp) = pathComponents path ++ [comp])
    (comps : List String) (path : String) (h : ∀ c ∈ comps, IsComponent c) :
    pathComponents (comps.foldl push path) = pathComponents path ++ comps := by
  induction comps generalizing path with
  | nil => simp
  | cons comp comps ih =>
    rw [List.forall_mem_cons] at h
    rw [List.foldl_cons, ih _ h.2, hpush path comp h.1, List.append_assoc, List.singleton_append]

/-- The components of the path that is resolved next. -/
theorem pathComponents_linkedPath {seen rest : List String} (target : String) (h : ∀ c ∈ seen ++ rest, IsComponent c) :
    pathComponents (linkedPath seen target rest) =
      (if target.toList.head? = some '/' then [] else seen) ++ (pathComponents target ++ rest) := by
  rw [List.forall_mem_append] at h
  unfold linkedPath
  rw [pathComponents_foldl (fun path _ => pathComponents_push path) rest _ h.2]
  split
  · rfl
  · rw [pathComponents_slash, pathComponents_foldl (fun path _ => pathComponents_component path) seen "" h.1,
      List.append_assoc]
    rfl

/-! ## Resolution -/

namespace DirGraph
variable {g : DirGraph} {followLast : Bool} {n : Nat} {cur next r : Node} {comp : String} {rest : List String}

theorem resolves_cons (hdir : cur.2 = itypeDir) (hentry : g.entry cur.1 comp = some next) :
    Resolves g followLast n cur (comp :: rest) r ↔ if Followed followLast next rest then
      ∃ k target, n = k + 1 ∧ g.target next.1 = some target ∧
        Resolves g followLast k (g.base cur target) (pathComponents target ++ rest) r
      else Resolves g followLast n next rest r := by
  constructor
  · intro h
    cases h with
    | step _ hentry' hstay h =>
      cases hentry.symm.trans hentry'
      rw [if_neg hstay]
      exact h
    | link _ hentry' hlink htarget h =>
      cases hentry.symm.trans hentry'
      rw [if_pos hlink]
      exact ⟨_, _, rfl, htarget, h⟩
  · split
    · rename_i hlink
      rintro ⟨k, target, rfl, htarget, h⟩
      exact .link hdir hentry hlink htarget h
    · rename_i hstay
      exact .step hdir hentry hstay

/-- The loop, where `again` resolves with one link less. The components `seen` lead from the root to `cur`. -/
theorem walk_iff {again : Option (String → Option Node)} (hnone : again = none → n = 0)
    (hsome : ∀ f, again = some f → ∃ k, n = k + 1 ∧
      ∀ path, f path = some r ↔ Resolves g followLast k (g.root, itypeDir) (pathComponents path) r)
    (rest : List String) : ∀ cur seen, (∀ c ∈ seen ++ rest, IsComponent c) →
      (rest ≠ [] → ∀ k rest', Resolves g followLast k (g.root, itypeDir) (seen ++ rest') r ↔
        Resolves g followLast k cur rest' r) →
      (g.ops.walk again followLast cur seen rest = some r ↔ Resolves g followLast n cur rest r) := by
  induction rest with
  | nil =>
    intro cur seen _ _
    constructor
    all_goals
      intro h
      cases h
    · exact .done n r
    · rfl
  | cons comp rest ih =>
    intro cur seen hcomps hback
    have hback := hback (List.cons_ne_nil _ _)
    rw [LinkOps.walk]
    by_cases hdir : cur.2 = itypeDir
    swap
    · rw [if_pos hdir]
      exact ⟨nofun, fun h => by cases h <;> contradiction⟩
    rw [if_neg (not_not.mpr hdir)]
    cases hentry : g.ops.entry cur.1 comp with
    | none =>
      have hentry : g.entry cur.1 comp = none := hentry
      exact ⟨nofun, fun h => by cases h <;> simp_all⟩
    | some next =>
      change (if Followed followLast next rest then _ else _) = _ ↔ _
      rw [resolves_cons hdir hentry]
      split
      · -- the path with the target in it is resolved from the root
        cases again with
        | none => exact ⟨nofun, fun ⟨_, _, e, _⟩ => nomatch (hnone rfl).symm.trans e⟩
        | some f =>
          obtain ⟨k, rfl, hf⟩ := hsome f rfl
          cases htarget : g.ops.target next.1 with
          | none => exact ⟨nofun, fun ⟨_, _, _, e, _⟩ => nomatch htarget.symm.trans e⟩
          | some target =>
            have hnext : f (linkedPath seen target rest) = some r ↔
                Resolves g followLast k (g.base cur target) (pathComponents target ++ rest) r := by
              rw [hf, pathComponents_linkedPath target fun c hc => hcomps c (by grind), base]
              split
              · exact Iff.rfl
              · exact hback k _
            refine hnext.trans ⟨fun h => ⟨k, target, rfl, htarget, h⟩, ?_⟩
            rintro ⟨_, _, e, htarget', h⟩
            cases e
            cases htarget.symm.trans htarget'
            exact h
      · rename_i hstay
        refine ih next (seen ++ [comp]) (by simpa using hcomps) fun hne k rest' => ?_
        -- before the end it is no link at all
        have hno : ¬Followed followLast next rest' := fun h => hstay ⟨h.1, .inr hne⟩
        rw [List.append_assoc, List.singleton_append, hback, resolves_cons hdir hentry, if_neg hno]

/-- `lookup_path_depth` returns what resolving the path component by component finds. -/
theorem lookupPathDepth_iff (g : DirGraph) (depth : Nat) (path : String) (followLast : Bool) (r : Node) :
    g.ops.lookupPathDepth depth path followLast = some r ↔
      Resolves g followLast depth (g.root, itypeDir) (pathComponents path) r := by
  induction depth generalizing path with
  | zero =>
    exact walk_iff (fun _ => rfl) (by simp) _ _ [] (fun _ => pathComponents_isComponent) fun _ _ _ => Iff.rfl
  | succ depth ih =>
    refine walk_iff (by simp) (fun f hf => ⟨depth, rfl, fun path => ?_⟩) _ _ [] (fun _ => pathComponents_isComponent)
      fun _ _ _ => Iff.rfl
    cases hf
    exact ih path

end DirGraph
end OpenV.FileServer
