import OpenV.FileServer.Names

/- The tree in memory: when the nodes, which are stored under their full paths, and the
   lists of entries that the directories keep beside that are in step, and which changes
   keep them so. -/
namespace OpenV.FileServer

open Function FileServer.Vfs List
open OpenV.Vfs (parentAndName)

/-! ## Consistency -/

/-- The entries of `/proc` and `/dev`, which have no nodes. -/
def Builtin (path : String) : Prop := path = "/proc" ∨ path = "/dev"

namespace Vfs

/-- Nodes and entries are in step. -/
structure Consistent (v : Vfs) : Prop where
  /-- a node is listed once in its directory -/
  listed : ∀ path, (v.nodes path).isSome → path ≠ "/" → ¬Builtin path → ∃ dir name children,
    parentAndName path = some (dir, name) ∧ path = childPath dir name ∧ v.children dir = some children ∧
      children.count name = 1
  /-- what is listed has a node -/
  hasNode : ∀ dir children, v.children dir = some children → ∀ name ∈ children, ¬Builtin (childPath dir name) →
    (v.nodes (childPath dir name)).isSome

/-- There is a root, and entries are names. -/
structure Named (v : Vfs) : Prop where
  root : (v.children "/").isSome
  keys : v.nodes "" = none
  names : ∀ dir children, v.children dir = some children → ∀ name ∈ children, ValidName name

/-- A path at which there is no directory with entries. -/
def Leaf (v : Vfs) (path : String) : Prop := ∀ children, v.children path = some children → children = []

/-- A node without entries. -/
def Bare (node : FsNode) : Prop := ∀ children, node.children = some children → children = []

@[simp] theorem nodes_insert (v : Vfs) (path : String) (node : FsNode) (q : String) :
    (v.insert path node).nodes q = if q = path then some node else v.nodes q :=
  update_apply ..

@[simp] theorem nodes_remove (v : Vfs) (path q : String) :
    (v.remove path).nodes q = if q = path then none else v.nodes q :=
  update_apply ..

@[simp] theorem children_insert (v : Vfs) (path : String) (node : FsNode) (q : String) :
    (v.insert path node).children q = if q = path then node.children else v.children q := by
  unfold children
  rw [nodes_insert]
  split_ifs <;> rfl

@[simp] theorem children_remove (v : Vfs) (path q : String) :
    (v.remove path).children q = if q = path then none else v.children q := by
  unfold children
  rw [nodes_remove]
  split_ifs <;> rfl

section
variable {v : Vfs} {path dir name : String} {node : FsNode} {children : List String}

theorem isSome_of_children (h : v.children dir = some children) : (v.nodes dir).isSome := by
  obtain ⟨node, hn, -⟩ := Option.bind_eq_some_iff.mp h
  rw [hn]
  rfl

theorem Named.ne_empty (h : v.Named) (hd : v.children dir = some children) : dir ≠ "" := fun e => by
  have hs := isSome_of_children hd
  rw [e, h.keys] at hs
  cases hs

/-- Where the entry of a node is. -/
theorem Named.entry_of_node (hn : v.Named) (hc : v.Consistent) (h : (v.nodes path).isSome) (hroot : path ≠ "/") :
    ∃ dir name children, path = childPath dir name ∧ v.children dir = some children ∧ ValidName name ∧ dir ≠ "" := by
  by_cases hb : Builtin path
  · obtain ⟨children, hch⟩ := Option.isSome_iff_exists.mp hn.root
    rcases hb with rfl | rfl
    · exact ⟨"/", "proc", children, by decide, hch, ⟨by decide, by decide⟩, by decide⟩
    · exact ⟨"/", "dev", children, by decide, hch, ⟨by decide, by decide⟩, by decide⟩
  · obtain ⟨dir, name, children, -, hpath, hch, hone⟩ := hc.listed path h hroot hb
    have hmem : name ∈ children := count_pos_iff.mp (by omega)
    exact ⟨dir, name, children, hpath, hch, hn.names dir children hch name hmem, hn.ne_empty hch⟩

/-! ## One change -/

theorem children_push (h : v.children dir = some children) :
    v.push dir name = v.insert dir (.dir (children ++ [name])) := by
  rw [push, h]

theorem children_drop (h : v.children dir = some children) :
    v.drop dir name = v.insert dir (.dir (children.filter (· ≠ name))) := by
  rw [drop, h]

/-- A path without a name is not that of an entry. -/
theorem childPath_ne {p : String} (hdir : dir ≠ "") (hn : ValidName name) (hp : parentAndName p = none) :
    p ≠ childPath dir name := by
  rintro rfl
  rw [parentAndName_childPath hdir hn] at hp
  cases hp

theorem root_ne_childPath (hdir : dir ≠ "") (hn : ValidName name) : childPath dir name ≠ "/" :=
  (childPath_ne hdir hn (by decide +kernel)).symm

/-- The directory `dir` lists `children'`; the node at `path`, which then has no entries, may have changed with it. -/
structure Relists (v v' : Vfs) (dir path : String) (children' : List String) : Prop where
  lists : v'.children dir = some children'
  other : ∀ d, d ≠ dir → v'.children d = v.children d ∨ d = path ∧ v'.Leaf d
  nodes : ∀ q, q ≠ path → (v'.nodes q).isSome = (v.nodes q).isSome

section
variable {v' : Vfs} {children' : List String}

theorem Named.change (h : v.Named) (hr : Relists v v' dir (childPath dir name) children') (hdir : dir ≠ "")
    (hn : ValidName name) (hvalid : ∀ n ∈ children', ValidName n) : v'.Named := by
  have hkey := childPath_ne hdir hn (p := "") (by decide +kernel)
  refine ⟨?_, ?_, fun d cs hd n hm => ?_⟩
  · by_cases he : "/" = dir
    · rw [he, hr.lists]
      rfl
    · rcases hr.other "/" he with e | ⟨e, -⟩
      · rw [e]
        exact h.root
      · exact absurd e.symm (root_ne_childPath hdir hn)
  · rw [← Option.not_isSome_iff_eq_none, hr.nodes "" hkey, h.keys]
    exact Bool.false_ne_true
  · by_cases he : d = dir
    · rw [he, hr.lists, Option.some.injEq] at hd
      exact hvalid n (hd ▸ hm)
    · rcases hr.other d he with e | ⟨-, hleaf⟩
      · exact h.names d cs (e ▸ hd) n hm
      · rw [hleaf cs hd] at hm
        cases hm

/-- The directory lists the path if there is a node, and the others as before. -/
theorem Consistent.change (hc : v.Consistent) (h : v.Named) (hch : v.children dir = some children) (hn : ValidName name)
    (hr : Relists v v' dir (childPath dir name) children')
    (hleaf : v.Leaf (childPath dir name) ∨ v'.children (childPath dir name) = v.children (childPath dir name))
    (hcount : ∀ n, ¬Builtin (childPath dir n) → children'.count n =
      if n = name then (if (v'.nodes (childPath dir name)).isSome then 1 else 0) else children.count n) :
    v'.Consistent := by
  have hdir := h.ne_empty hch
  refine ⟨fun q hq hroot hb => ?_, fun d cs hd n hm hb => ?_⟩
  · by_cases hqn : q = childPath dir name
    · subst hqn
      refine ⟨dir, name, children', parentAndName_childPath hdir hn, rfl, hr.lists, ?_⟩
      rw [hcount name hb, if_pos rfl, if_pos hq]
    rw [hr.nodes q hqn] at hq
    obtain ⟨d, n, cs, hp, hqd, hd, hone⟩ := hc.listed q hq hroot hb
    by_cases hdd : d = dir
    · subst hdd
      rw [hch, Option.some.injEq] at hd
      refine ⟨d, n, children', hp, hqd, hr.lists, ?_⟩
      rw [hcount n (hqd ▸ hb), if_neg fun e => hqn (by rw [hqd, e]), hd, hone]
    · refine ⟨d, n, cs, hp, hqd, ?_, hone⟩
      rcases hr.other d hdd with e | ⟨rfl, -⟩
      · rw [e, hd]
      · rcases hleaf with hleaf | e
        -- what is replaced or removed has no entries
        · rw [hleaf cs hd] at hone
          cases hone
        · rw [e, hd]
  · by_cases hdd : d = dir
    · subst hdd
      rw [hr.lists, Option.some.injEq] at hd
      rw [← hd, ← count_pos_iff, hcount n hb] at hm
      by_cases hnn : n = name
      · rw [if_pos hnn] at hm
        split_ifs at hm with hs
        · rw [hnn]
          exact hs
        · cases hm
      · rw [if_neg hnn, count_pos_iff] at hm
        rw [hr.nodes _ fun e => hnn (childPath_inj hdir hdir (h.names d children hch n hm) hn e).2]
        exact hc.hasNode d children hch n hm hb
    · rcases hr.other d hdd with e | ⟨-, hleaf⟩
      · rw [e] at hd
        rw [hr.nodes _ fun e => hdd (childPath_inj (h.ne_empty hd) hdir (h.names d cs hd n hm) hn e).1]
        exact hc.hasNode d cs hd n hm hb
      · rw [hleaf cs hd] at hm
        cases hm

end

theorem isSome_insert (node : FsNode) (hs : (v.nodes path).isSome) (q : String) :
    ((v.insert path node).nodes q).isSome = (v.nodes q).isSome := by
  rw [nodes_insert]
  split_ifs with he
  · rw [he, hs]
    rfl
  · rfl

/-- A directory gets a new list. -/
theorem relists_dir (hch : v.children dir = some children) (path : String) (children' : List String) :
    Relists v (v.insert dir (.dir children')) dir path children' where
  lists := by rw [children_insert, if_pos rfl]; rfl
  other d hd := .inl (by rw [children_insert, if_neg hd])
  nodes q _ := isSome_insert _ (isSome_of_children hch) q

variable {v' : Vfs} {old new : String}

/-- A path gets a new node, or none. -/
theorem Relists.set {w : Vfs} {children' : List String} {x : Option FsNode} (h : Relists v v' dir path children')
    (hw : w.nodes = update v'.nodes path x) (hne : dir ≠ path) (hx : ∀ node, x = some node → Bare node) :
    Relists v w dir path children' := by
  have hsame : ∀ d, d ≠ path → w.nodes d = v'.nodes d := fun d hd => by rw [hw, update_of_ne hd]
  refine ⟨?_, fun d hd => ?_, fun q hq => ?_⟩
  · rw [children, hsame dir hne]
    exact h.lists
  · by_cases hp : d = path
    · refine .inr ⟨hp, fun cs hcs => ?_⟩
      rw [children, hw, hp, update_self] at hcs
      obtain ⟨node, hnode, hcs⟩ := Option.bind_eq_some_iff.mp hcs
      exact hx node hnode cs hcs
    · rw [children, hsame d hp]
      exact .inl ((h.other d hd).resolve_right fun e => hp e.1)
  · rw [hsame q hq]
    exact h.nodes q hq

section
variable (hc : v.Consistent) (h : v.Named) (hch : v.children dir = some children) (hn : ValidName name)
include hch hn

theorem relists_add (hbare : Bare node) :
    Relists v ((v.push dir name).insert (childPath dir name) node) dir (childPath dir name) (children ++ [name]) := by
  rw [children_push hch]
  refine (relists_dir hch _ _).set rfl (childPath_ne_self dir hn).symm fun node' e => ?_
  cases e
  exact hbare

theorem relists_remove :
    Relists v ((v.drop dir name).remove (childPath dir name)) dir (childPath dir name) (children.filter (· ≠ name)) := by
  rw [children_drop hch]
  exact (relists_dir hch _ _).set rfl (childPath_ne_self dir hn).symm nofun

theorem relists_replace (hbare : Bare node) :
    Relists v (v.insert (childPath dir name) node) dir (childPath dir name) children := by
  have hv : Relists v v dir (childPath dir name) children := ⟨hch, fun _ _ => .inl rfl, fun _ _ => rfl⟩
  refine hv.set rfl (childPath_ne_self dir hn).symm fun node' e => ?_
  cases e
  exact hbare

include h

theorem Named.valid_append : ∀ n ∈ children ++ [name], ValidName n := by
  intro n hm
  rcases mem_append.mp hm with hm | hm
  · exact h.names dir children hch n hm
  · rw [mem_singleton.mp hm]
    exact hn

/-- A node is added together with its entry. -/
theorem Named.add (hbare : Bare node) : ((v.push dir name).insert (childPath dir name) node).Named :=
  h.change (relists_add hch hn hbare) (h.ne_empty hch) hn (h.valid_append hch hn)

/-- A node is removed together with its entry. -/
theorem Named.remove : ((v.drop dir name).remove (childPath dir name)).Named :=
  h.change (relists_remove hch hn) (h.ne_empty hch) hn fun n hm => h.names dir children hch n (mem_of_mem_filter hm)

/-- A node without entries is replaced by another one. -/
theorem Named.replace (hbare : Bare node) : (v.insert (childPath dir name) node).Named :=
  h.change (relists_replace hch hn hbare) (h.ne_empty hch) hn (h.names dir children hch)

include hc

theorem Consistent.add (hbare : Bare node) (hnew : v.nodes (childPath dir name) = none) :
    ((v.push dir name).insert (childPath dir name) node).Consistent := by
  refine hc.change h hch hn (relists_add hch hn hbare) (.inl fun cs hcs => ?_) fun n hb => ?_
  · rw [Vfs.children, hnew] at hcs
    cases hcs
  · rw [nodes_insert, if_pos rfl, count_append, count_singleton]
    by_cases hnn : n = name
    · subst hnn
      have hnot : n ∉ children := fun hm => by
        have hs := hc.hasNode dir children hch n hm hb
        rw [hnew] at hs
        cases hs
      rw [count_eq_zero.mpr hnot, if_pos rfl]
      simp
    · rw [if_neg hnn, beq_false_of_ne (Ne.symm hnn)]
      rfl

theorem Consistent.remove
    (hleaf : v.Leaf (childPath dir name)) : ((v.drop dir name).remove (childPath dir name)).Consistent := by
  refine hc.change h hch hn (relists_remove hch hn) (.inl hleaf) fun n _ => ?_
  rw [nodes_remove, if_pos rfl]
  by_cases hnn : n = name
  · rw [if_pos hnn, count_eq_zero.mpr (by simp [hnn])]
    rfl
  · rw [if_neg hnn, count_filter (by simpa using hnn)]

/-- The entry of a node. -/
theorem Consistent.count_one (hs : (v.nodes (childPath dir name)).isSome) (hb : ¬Builtin (childPath dir name)) :
    children.count name = 1 := by
  have hdir := h.ne_empty hch
  obtain ⟨d, n, cs, -, hpath, hd, hone⟩ := hc.listed _ hs (root_ne_childPath hdir hn) hb
  have hmem : n ∈ cs := count_pos_iff.mp (by omega)
  obtain ⟨rfl, rfl⟩ := childPath_inj hdir (h.ne_empty hd) hn (h.names d cs hd n hmem) hpath
  rw [hch, Option.some.injEq] at hd
  rw [hd, hone]

theorem Consistent.replace
    (hs : (v.nodes (childPath dir name)).isSome) (hleaf : v.Leaf (childPath dir name)) (hbare : Bare node) :
    (v.insert (childPath dir name) node).Consistent := by
  refine hc.change h hch hn (relists_replace hch hn hbare) (.inl hleaf) fun n hb => ?_
  rw [nodes_insert, if_pos rfl]
  by_cases hnn : n = name
  · rw [if_pos hnn, hnn, hc.count_one h hch hn hs (hnn ▸ hb)]
    rfl
  · rw [if_neg hnn]

end

/-! ## Operations -/

/-- Nodes and entries are in step, in a tree with names. -/
structure Sound (v : Vfs) : Prop where
  named : v.Named
  consistent : v.Consistent

theorem bare_of_leaf (hleaf : v.Leaf path) (h : v.nodes path = some node) : Bare node := fun cs hcs =>
  hleaf cs (by rw [children, h]; exact hcs)

/-- The entry that a normal path is of. -/
theorem entry_cases (v : Vfs) (path : String) : v.entry (normalizePath path) = none ∨
    ∃ dir name children, v.entry (normalizePath path) = some (dir, name) ∧ normalizePath path = childPath dir name ∧
      ValidName name ∧ v.children dir = some children := by
  unfold entry
  cases hp : parentAndName (normalizePath path) with
  | none => exact .inl rfl
  | some found =>
    obtain ⟨d, n⟩ := found
    obtain ⟨hpath, hn, -⟩ := normal_childPath hp
    dsimp only
    split_ifs with hs
    · obtain ⟨cs, hcs⟩ := Option.isSome_iff_exists.mp hs
      exact .inr ⟨d, n, cs, rfl, hpath, hn, hcs⟩
    · exact .inl rfl

theorem Sound.addNode (h : v.Sound) (hnew : v.nodes (normalizePath path) = none) (hbare : Bare node)
    (hv : v.addNode (normalizePath path) node = some v') : v'.Sound := by
  unfold Vfs.addNode at hv
  rcases v.entry_cases path with he | ⟨d, n, cs, he, hpath, hn, hcs⟩ <;> rw [he] at hv <;> cases hv
  rw [hpath] at hnew ⊢
  exact ⟨h.named.add hcs hn hbare, h.consistent.add h.named hcs hn hbare hnew⟩

theorem bare_memFile (data : List (BitVec 8)) : Bare (.memFile data) := nofun

theorem bare_dir : Bare (.dir []) := fun _ hcs => (Option.some.inj hcs).symm

theorem Sound.createNode (h : v.Sound) (hleaf : v.Leaf (normalizePath path))
    (hv : v.createNode (normalizePath path) = some v') : v'.Sound := by
  unfold Vfs.createNode at hv
  rcases v.entry_cases path with he | ⟨d, n, cs, he, hpath, hn, hcs⟩ <;> rw [he] at hv
  · cases hv
  rw [← Option.some.inj hv]
  rw [hpath] at hleaf ⊢
  split_ifs with hs
  · exact ⟨h.named.replace hcs hn (bare_memFile []), h.consistent.replace h.named hcs hn hs hleaf (bare_memFile [])⟩
  · rw [Option.not_isSome_iff_eq_none] at hs
    exact ⟨h.named.add hcs hn (bare_memFile []), h.consistent.add h.named hcs hn (bare_memFile []) hs⟩

theorem Sound.unlinkNode (h : v.Sound) (hleaf : v.Leaf (normalizePath path))
    (hv : v.unlinkNode (normalizePath path) = some v') : v'.Sound := by
  unfold Vfs.unlinkNode at hv
  split_ifs at hv with hs
  rcases v.entry_cases path with he | ⟨d, n, cs, he, hpath, hn, hcs⟩ <;> rw [he] at hv <;> cases hv
  rw [hpath] at hleaf ⊢
  exact ⟨h.named.remove hcs hn, h.consistent.remove h.named hcs hn hleaf⟩

theorem Sound.link (h : v.Sound) (hv : v.link old new = some v') : v'.Sound := by
  unfold Vfs.link at hv
  cases hnode : v.nodes (normalizePath old) with
  | none =>
    rw [hnode] at hv
    cases hv
  | some node =>
    rw [hnode] at hv
    have hadd : Bare node → (if (v.nodes (normalizePath new)).isSome then none
        else v.addNode (normalizePath new) node) = some v' → v'.Sound := fun hbare hv => by
      split_ifs at hv with hs
      exact h.addNode (Option.not_isSome_iff_eq_none.mp hs) hbare hv
    cases node with
    | dir cs => cases hv
    | tarFile off size => exact hadd nofun hv
    | memFile data => exact hadd (bare_memFile data) hv
    | symlink target => exact hadd nofun hv

/-- What a rename needs: a node without entries goes to a free name in a directory, or a path to itself. -/
def CanRename (v : Vfs) (old new : String) : Prop :=
  old = new ∨ v.nodes old = none ∨ (old ≠ "/" ∧ v.Leaf old ∧ v.nodes new = none ∧
    ∃ dir name, new = childPath dir name ∧ ValidName name ∧ dir ≠ old ∧ (v.children dir).isSome)

/-- Removing a node and its entry can be done in either order. -/
theorem drop_remove (hch : v.children dir = some children) (hne : dir ≠ path) :
    (v.remove path).drop dir name = (v.drop dir name).remove path := by
  have hch' : (v.remove path).children dir = some children := by rw [children_remove, if_neg hne, hch]
  rw [children_drop hch, children_drop hch']
  exact congrArg mk (update_comm hne _ _ _).symm

/-- A node that is moved to its own path only moves to the end of its directory. -/
theorem Sound.rename_self (h : v.Sound) (hcs : v.children dir = some children) (hn : ValidName name)
    (hnode : v.nodes (childPath dir name) = some node) :
    ((((v.drop dir name).remove (childPath dir name)).push dir name).insert (childPath dir name) node).Sound := by
  have hne := childPath_ne_self dir hn
  have heq : (((v.drop dir name).remove (childPath dir name)).push dir name).insert (childPath dir name) node =
      v.insert dir (.dir (children.filter (· ≠ name) ++ [name])) := by
    refine congrArg Vfs.mk (funext fun q => ?_)
    show (insert _ _ _).nodes q = (insert _ _ _).nodes q
    rw [children_push (relists_remove hcs hn).lists, children_drop hcs]
    simp only [nodes_insert, nodes_remove]
    by_cases hq : q = childPath dir name
    · rw [if_pos hq, if_neg (by rw [hq]; exact hne), hq, hnode]
    · rw [if_neg hq, if_neg hq]
      split_ifs <;> rfl
  rw [heq]
  have hr := relists_dir hcs (childPath dir name) (children.filter (· ≠ name) ++ [name])
  refine ⟨h.named.change hr (h.named.ne_empty hcs) hn fun n hm => ?_, h.consistent.change h.named hcs hn hr (.inr ?_)
    fun n hb => ?_⟩
  · rcases mem_append.mp hm with hm | hm
    · exact h.named.names dir children hcs n (mem_of_mem_filter hm)
    · rw [mem_singleton.mp hm]
      exact hn
  · rw [children_insert, if_neg hne]
  · rw [isSome_insert _ (isSome_of_children hcs), hnode, count_append, count_singleton]
    by_cases hnn : n = name
    · rw [if_pos hnn, hnn, count_eq_zero.mpr (by simp)]
      simp
    · rw [if_neg hnn, count_filter (by simpa using hnn), beq_false_of_ne (Ne.symm hnn)]
      rfl

theorem Sound.rename (h : v.Sound) (hcan : v.CanRename old new) (hv : v.rename old new = some v') : v'.Sound := by
  unfold Vfs.rename at hv
  cases hnode : v.nodes old with
  | none =>
    rw [hnode] at hv
    cases hv
  | some node =>
    have hs : (v.nodes old).isSome := by rw [hnode]; rfl
    rw [hnode] at hv
    dsimp only at hv
    by_cases hroot : old = "/"
    · rcases hcan with rfl | hnone | ⟨hne, -⟩
      · have hself : v' = v := by
          rw [hroot, show parentAndName "/" = none by decide +kernel] at hv
          dsimp only at hv
          rw [← Option.some.inj hv]
          refine congrArg Vfs.mk (funext fun q => ?_)
          show (insert _ _ _).nodes q = v.nodes q
          rw [nodes_insert, nodes_remove]
          by_cases hq : q = "/"
          · rw [if_pos hq, hq, ← hroot, hnode]
          · rw [if_neg hq, if_neg hq]
        rw [hself]
        exact h
      · rw [hnone] at hs
        cases hs
      · exact absurd hroot hne
    obtain ⟨dir, name, cs, hpath, hcs, hn, hdir⟩ := h.named.entry_of_node h.consistent hs hroot
    have hp : parentAndName old = some (dir, name) := by
      rw [hpath]
      exact parentAndName_childPath hdir hn
    have hne : dir ≠ old := fun e => childPath_ne_self dir hn (by rw [← hpath, e])
    rw [hp] at hv
    dsimp only at hv
    rw [drop_remove hcs hne] at hv
    rcases hcan with rfl | hnone | ⟨-, hleaf, hnew, d, n, hd, hnn, hdne, hds⟩
    · rw [hp] at hv
      dsimp only at hv
      rw [← Option.some.inj hv, hpath]
      exact h.rename_self hcs hn (by rw [← hpath]; exact hnode)
    · rw [hnone] at hs
      cases hs
    · have hbare := bare_of_leaf hleaf hnode
      -- the tree without the node
      have h₁ : ((v.drop dir name).remove old).Sound := by
        rw [hpath] at hleaf ⊢
        exact ⟨h.named.remove hcs hn, h.consistent.remove h.named hcs hn hleaf⟩
      obtain ⟨ds, hds⟩ := Option.isSome_iff_exists.mp hds
      have hds₁ : ∃ ds₁, ((v.drop dir name).remove old).children d = some ds₁ := by
        rw [children_drop hcs, children_remove, if_neg hdne, children_insert]
        split_ifs
        · exact ⟨_, rfl⟩
        · exact ⟨ds, hds⟩
      obtain ⟨ds₁, hds₁⟩ := hds₁
      have hnew₁ : ((v.drop dir name).remove old).nodes (childPath d n) = none := by
        rw [children_drop hcs, nodes_remove, nodes_insert, ← hd, hnew]
        have hdir' : new ≠ dir := fun e => by
          rw [e] at hnew
          have hsd := isSome_of_children hcs
          rw [hnew] at hsd
          cases hsd
        rw [if_neg hdir']
        split_ifs <;> rfl
      rw [hd, parentAndName_childPath (h₁.named.ne_empty hds₁) hnn] at hv
      rw [← Option.some.inj hv]
      exact ⟨h₁.named.add hds₁ hnn hbare, h₁.consistent.add h₁.named hds₁ hnn hbare hnew₁⟩

end
end Vfs
end OpenV.FileServer
