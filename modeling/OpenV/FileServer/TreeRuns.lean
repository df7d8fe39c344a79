import OpenV.FileServer.Initrd
import OpenV.FileServer.Tree

/- The trees of all namespaces over whole runs of requests. `create` puts a file in the
   place of a directory, `unlink` removes a directory with what is in it, and a rename
   moves a single node to any string as its new path: nodes then lose their directory, or
   entries their nodes. Where no request does that to a directory that has entries, and
   renames only go to free names in directories, nodes and entries stay in step. -/
namespace OpenV.FileServer

open Cmd Function
open OpenV.Vfs (parentAndName nameBytes)

namespace Vfs

/-- At the path of a new node there is none, also where the block file system is asked instead. -/
def Free (v : Vfs) (path : String) : Prop := stripMnt path ≠ none → v.nodes path = none

theorem Free.nodes {v : Vfs} {path : String} (hfree : v.Free (normalizePath path))
    (h : stripMnt (normalizePath path) = none → v.nodes (normalizePath (normalizePath path)) = none) :
    v.nodes (normalizePath path) = none := by
  by_cases hm : stripMnt (normalizePath path) = none
  · rw [← normalizePath_idem path]
    exact h hm
  · exact hfree hm

end Vfs

/-- What a request must not do to the tree: replace or remove a directory that has entries, make a node where there is
one, or rename to something that is not a free name in a directory. -/
def Req.Tidy {β : Type} (r : Req) (s : Server β) : Prop :=
  match r with
  | .opCreate ns path => ∀ p, path.read = some p → stripMnt p = none → (s.namespaces ns).Leaf (normalizePath p)
  | .opUnlink ns path => ∀ p, path.read = some p → stripMnt p = none → (s.namespaces ns).Leaf (normalizePath p)
  | .opMkdir ns path => ∀ p, path.read = some p → stripMnt p = none → (s.namespaces ns).Free (normalizePath p)
  | .opSymlink link _ => ∀ p, link.readLimited = some p → stripMnt p = none →
    (s.namespaces 1).Free (normalizePath p)
  | .opRename old new => ∀ o n, old.read = some o → new.read = some n → stripMnt o = none → stripMnt n = none →
    (s.namespaces 1).CanRename o n
  | _ => True

namespace Server
variable {β α : Type} {F : BlockFs β} {s : Server β}

/-! ## Commands of the server -/

variable {path : String} {Q : α → Server β → Prop} {E : Server β → Prop} {ns : BitVec 32}

/-- A command of the block file system changes nothing else. -/
theorem wp_onBlk {c : Cmd β α} (hQ : ∀ a b, Q a { s with blk := b }) (hE : ∀ b, E { s with blk := b }) :
    (onBlk c).wp Q E (fun _ => True) s := by
  unfold Cmd.wp onBlk Cmd.zoom
  rcases c s.blk with ⟨a | e | e, b⟩
  · exact hQ a b
  · exact hE b
  · trivial

theorem wp_nsVfs {f : Vfs → Cmd (Server β) α} {X : Server β → Prop} :
    (nsVfs ns >>= f).wp Q E X s ↔ (f (s.namespaces ns)).wp Q E X s := by
  rw [wp_bind]
  exact wp_of_eq rfl

/-- `exists` only asks. It answers for the node unless the block file system does. -/
theorem wp_pathExists {v : Vfs} {Q : Bool → Server β → Prop}
    (hQ : ∀ r b, (r = false → stripMnt path = none → v.nodes (normalizePath path) = none) → Q r { s with blk := b })
    (hE : ∀ b, E { s with blk := b }) : (pathExists F v path).wp Q E (fun _ => True) s := by
  unfold pathExists
  by_cases hv : isVirtualPath path = true
  · rw [if_pos hv, wp_pure]
    exact hQ true s.blk nofun
  rw [if_neg hv]
  cases hm : stripMnt path with
  | none =>
    refine (wp_pure _).mpr (hQ _ s.blk fun hr _ => ?_)
    exact Option.not_isSome_iff_eq_none.mp (by rw [hr]; exact Bool.false_ne_true)
  | some p =>
    rw [wp_bind]
    refine wp_onBlk (fun found b => ?_) hE
    cases found with
    | some found => exact (wp_pure _).mpr (hQ found b fun _ h => by rw [hm] at h; cases h)
    | none => exact (wp_pure _).mpr (hQ _ b fun _ h => by rw [hm] at h; cases h)

/-- The tree of every namespace has the property. -/
def Each (P : Vfs → Prop) (s : Server β) : Prop := ∀ ns, P (s.namespaces ns)

/-- After the command every tree has the property. -/
def Keeps (P : Vfs → Prop) (c : Cmd (Server β) α) (s : Server β) : Prop :=
  c.wp (fun _ => Each P) (Each P) (fun _ => True) s

section
variable {P : Vfs → Prop}

theorem Each.pure (h : Each P s) (a : α) : Keeps P (Pure.pure a : Cmd (Server β) α) s :=
  (wp_pure a).mpr h

theorem Each.onBlk (h : Each P s) (c : Cmd β α) : Keeps P (onBlk c) s := wp_onBlk (fun _ _ => h) fun _ => h

variable {ns : BitVec 32} {c : Cmd (Server β) α}

theorem Keeps.bind {γ : Type} {f : α → Cmd (Server β) γ} (h : Keeps P c s)
    (hf : ∀ a s', Each P s' → Keeps P (f a) s') : Keeps P (c >>= f) s := by
  unfold Keeps
  rw [wp_bind]
  exact wp_imp h hf

theorem Each.set (h : Each P s) {v : Vfs} (hv : P v) : Keeps P (setNs ns v) s := by
  refine (wp_modify _).mpr fun ns' => ?_
  show P (Function.update s.namespaces ns v ns')
  by_cases he : ns' = ns
  · rw [he, update_self]
    exact hv
  · rw [update_of_ne he]
    exact h ns'

theorem Each.commit (h : Each P s) {r : Option Vfs} (hr : ∀ v, r = some v → P v) : Keeps P (commit ns r) s := by
  cases r with
  | none => exact h.pure _
  | some v => exact (h.set (hr v rfl)).bind fun _ _ h => h.pure _

theorem Each.withPath (h : Each P s) {path : Option String} {act : String → Cmd (Server β) Reply}
    (hact : ∀ p, path = some p → Keeps P (act p) s) : Keeps P (withPath path act) s := by
  cases path with
  | none => exact h.pure _
  | some p => exact hact p rfl

theorem Keeps.reply {f : α → Reply} (h : Keeps P c s) : Keeps P (do return f (← c)) s :=
  h.bind fun _ _ h => h.pure _

theorem Keeps.replyOpen {c : Cmd (Server β) Bool} {path : String} (h : Keeps P c s) :
    Keeps P (do replyOpen ns path (← c)) s := by
  refine h.bind fun ok s' h => ?_
  cases ok with
  | false => exact h.pure _
  | true =>
    refine Keeps.bind (c := Cmd.get) (wp_get.mpr h) fun _ s' h => ?_
    exact Keeps.bind ((wp_modify _).mpr h) fun _ s' h => h.pure _

end

/-! ## Requests -/

/-- `mkdir` and `symlink`: a new node, if the path does not exist. -/
theorem Each.addUnlessExists {P : Vfs → Prop} (h : Each P s) {node : FsNode}
    (hadd : ∀ v, (stripMnt path = none → (s.namespaces ns).nodes (normalizePath path) = none) →
      (s.namespaces ns).addNode path node = some v → P v) : Keeps P (Server.addUnlessExists F ns path node) s := by
  refine wp_nsVfs.mpr ?_
  rw [wp_bind]
  refine wp_pathExists (fun r b hr => ?_) fun _ => h
  have h' : Each P { s with blk := b } := h
  cases r with
  | true => exact h'.pure _
  | false =>
    exact h'.commit fun v => hadd v (hr rfl)

theorem Each.onBoth (h : Each Vfs.Sound s) {old new : String} {blk : String → String → Cmd β Bool}
    {mem : Vfs → String → String → Option Vfs}
    (hmem : stripMnt old = none → stripMnt new = none → ∀ v, mem (s.namespaces 1) old new = some v → v.Sound) :
    Keeps Vfs.Sound (onBoth old new blk mem) s := by
  unfold Server.onBoth
  cases ho : stripMnt old with
  | some p =>
    cases stripMnt new with
    | some q => exact h.onBlk _
    | none => exact h.pure _
  | none =>
    cases hn : stripMnt new with
    | some q => exact h.pure _
    | none => exact wp_nsVfs.mpr (h.commit (hmem ho hn))

/-- A request is served. -/
def serve (F : BlockFs β) (r : Env × Req) : Cmd (Server β) Unit := do
  let _ ← dispatch F r.1 r.2
  pure ()

/-- One request. -/
theorem Each.dispatch (h : Each Vfs.Sound s) {env : Env} {r : Req} (hr : r.Tidy s) :
    Keeps Vfs.Sound (dispatch F env r) s := by
  cases r with
  | opOpen ns path =>
    refine h.withPath fun p _ => wp_nsVfs.mpr ?_
    exact Keeps.replyOpen (wp_pathExists (fun _ _ _ => h) fun _ => h)
  | opCreate ns path =>
    refine h.withPath fun p hp => Keeps.replyOpen ?_
    unfold create
    cases hm : stripMnt p with
    | some q => exact h.onBlk _
    | none => exact wp_nsVfs.mpr (h.commit fun v hv => (h ns).createNode (hr p hp hm) hv)
  | opMkdir ns path =>
    refine h.withPath fun p hp => Keeps.reply ?_
    unfold mkdir
    cases hm : stripMnt p with
    | some q => exact h.onBlk _
    | none => exact h.addUnlessExists fun v hv => (h ns).addNode ((hr p hp hm).nodes hv) Vfs.bare_dir
  | opUnlink ns path =>
    refine h.withPath fun p hp => Keeps.reply ?_
    unfold unlink
    cases hm : stripMnt p with
    | some q => exact h.onBlk _
    | none => exact wp_nsVfs.mpr (h.commit fun v hv => (h ns).unlinkNode (hr p hp hm) hv)
  | opStat ns path =>
    refine h.withPath fun p _ => ?_
    unfold opStat
    cases forwardStat env p with
    | some r => exact h.pure _
    | none =>
      refine Keeps.reply ?_
      unfold stat
      cases virtualStat p with
      | some r => exact h.pure _
      | none =>
        cases stripMnt p with
        | some q => exact h.onBlk _
        | none => exact wp_nsVfs.mpr (h.pure _)
  | opGetdents path bufLen =>
    refine h.withPath fun p _ => ?_
    unfold getdents
    rcases forwardList env p with _ | _ | data
    · have hread : Keeps Vfs.Sound (readdir F env 1 p) s := by
        unfold readdir
        cases virtualReaddir env p with
        | some r => exact h.pure _
        | none =>
          cases stripMnt p with
          | some q => exact h.onBlk _
          | none => exact wp_nsVfs.mpr (h.pure _)
      refine hread.bind fun names s' h' => ?_
      cases names <;> exact h'.pure _
    · exact h.pure _
    · exact h.pure _
  | opRename old new =>
    refine h.withPath fun o ho => h.withPath fun n hn => Keeps.reply ?_
    exact h.onBoth fun hmo hmn v hv => (h 1).rename (hr o n ho hn hmo hmn) hv
  | opReadlink path bufLen =>
    unfold Server.dispatch
    dsimp only
    split_ifs
    · exact h.pure _
    · refine h.withPath fun p _ => ?_
      unfold readlink
      cases stripMnt p with
      | some q =>
        refine (h.onBlk _).bind fun target s' h' => ?_
        cases target <;> exact h'.pure _
      | none =>
        refine wp_nsVfs.mpr ?_
        cases (s.namespaces 1).readlink p <;> exact h.pure _
  | opSymlink link target =>
    refine h.withPath fun p hp => h.withPath fun t _ => Keeps.reply ?_
    unfold symlink
    cases hm : stripMnt p with
    | some q => exact h.onBlk _
    | none =>
      refine h.addUnlessExists fun v hv => (h 1).addNode ((hr p hp hm).nodes hv) ?_
      exact nofun
  | opLink old new =>
    refine h.withPath fun o _ => h.withPath fun n _ => Keeps.reply ?_
    exact h.onBoth fun _ _ v hv => (h 1).link hv

/-! ## The start -/

end Server

namespace Vfs
variable {v : Vfs}

theorem named_new : new.Named := by
  refine ⟨rfl, rfl, fun dir children hd name hm => ?_⟩
  unfold Vfs.children Vfs.new at hd
  dsimp only at hd
  rw [update_apply] at hd
  split_ifs at hd
  · cases hd
    cases hm
  · cases hd

theorem consistent_new : new.Consistent := by
  refine ⟨fun path h hroot _ => ?_, fun dir children hd name hm _ => ?_⟩
  · unfold Vfs.new at h
    dsimp only at h
    rw [update_of_ne hroot] at h
    cases h
  · unfold Vfs.children Vfs.new at hd
    dsimp only at hd
    rw [update_apply] at hd
    split_ifs at hd
    · cases hd
      cases hm
    · cases hd

theorem Named.addNode {path : String} {node : FsNode} (h : v.Named) (hbare : Bare node) {v' : Vfs}
    (hv : v.addNode (normalizePath path) node = some v') : v'.Named := by
  unfold Vfs.addNode at hv
  rcases v.entry_cases path with he | ⟨d, n, cs, he, hpath, hn, hcs⟩ <;> rw [he] at hv <;> cases hv
  rw [hpath]
  exact h.add hcs hn hbare

theorem Named.insertTarFile (h : v.Named) (path : String) (off size : Nat) : (v.insertTarFile path off size).Named := by
  have hbare : Bare (.tarFile off size) := nofun
  unfold Vfs.insertTarFile
  rcases v.entry_cases path with he | ⟨d, n, cs, he, hpath, hn, hcs⟩ <;> rw [he]
  · exact h
  rw [hpath]
  split_ifs
  · exact h.replace hcs hn hbare
  · exact h.add hcs hn hbare

theorem Named.addBuiltin (h : v.Named) {name : String} (hn : ValidName name) : (Server.addBuiltin name v).Named := by
  unfold Server.addBuiltin
  obtain ⟨cs, hcs⟩ := Option.isSome_iff_exists.mp h.root
  rw [hcs]
  dsimp only
  split_ifs
  · exact h
  · rw [children_push hcs]
    exact h.change (relists_dir hcs _ _) (by decide) hn (h.valid_append hcs hn)

end Vfs

namespace Server
variable {β : Type} {F : BlockFs β} {s : Server β}
variable {ns : BitVec 32} {P : Vfs → Prop}

theorem Each.mkdir {s : Server β} (path : String) (h : Each Vfs.Named s) : Keeps Vfs.Named (mkdir F ns path) s := by
  unfold Server.mkdir
  cases stripMnt path with
  | some p => exact h.onBlk _
  | none => exact h.addUnlessExists fun v _ => (h ns).addNode Vfs.bare_dir

theorem Each.pathExists (h : Each P s) (v : Vfs) (path : String) : Keeps P (pathExists F v path) s :=
  wp_pathExists (fun _ _ _ => h) fun _ => h

/-- `mkdir_all` keeps what `mkdir` keeps. -/
theorem Each.mkdirAll (hmkdir : ∀ {s : Server β} (path : String), Each P s → Keeps P (Server.mkdir F ns path) s)
    (fuel : Nat) : ∀ {s : Server β} (path : String), Each P s → Keeps P (mkdirAll F ns fuel path) s := by
  induction fuel with
  | zero => exact fun _ h => h.pure _
  | succ fuel ih =>
    intro s path h
    refine wp_nsVfs.mpr ?_
    split_ifs with hroot
    · exact h.pure _
    refine (h.pathExists _ _).bind fun r s₁ h₁ => ?_
    cases r with
    | true => exact h₁.pure _
    | false =>
      have hparent : Keeps P (Cmd.forSome (parentPath path) (Server.mkdirAll F ns fuel)) s₁ := by
        cases parentPath path with
        | some parent => exact ih parent h₁
        | none => exact h₁.pure _
      refine hparent.bind fun _ s₂ h₂ => wp_nsVfs.mpr ?_
      refine (h₂.pathExists _ _).bind fun r s₃ h₃ => ?_
      cases r with
      | true => exact h₃.pure _
      | false => exact (hmkdir path h₃).bind fun _ _ h => h.pure _

theorem Each.enter (h : Each Vfs.Named s) (hd : Header) (offset : Nat) : Keeps Vfs.Named (enter F hd offset) s := by
  unfold Server.enter
  cases tarEntry hd with
  | headerOnly => exact h.pure _
  | ignored => exact h.pure _
  | dir path => exact Each.mkdirAll Each.mkdir _ path h
  | file path =>
    refine (Each.mkdirAll Each.mkdir _ _ h).bind fun _ s' h' => wp_nsVfs.mpr ?_
    exact h'.set ((h' 1).insertTarFile path _ _)

theorem Each.scanFrom (a : Vfs.Bytes) (fuel : Nat) : ∀ {s : Server β} (offset : Nat) (empty : Bool), Each Vfs.Named s →
    Keeps Vfs.Named (scanFrom F a fuel offset empty) s := by
  induction fuel with
  | zero => exact fun _ _ h => h.pure _
  | succ fuel ih =>
    intro s offset empty h
    unfold Server.scanFrom
    dsimp only
    by_cases hlen : initrdRead a 512 offset < 512
    · rw [if_pos hlen]
      exact h.pure _
    rw [if_neg hlen]
    by_cases hzero : (headerAt a offset).isZero = true
    · rw [if_pos hzero]
      cases empty with
      | true => exact h.pure _
      | false => exact ih _ _ h
    · rw [if_neg hzero]
      exact (h.enter _ _).bind fun _ _ h => ih _ _ h

/-- The trees that the server starts with, whatever is in the archive. -/
theorem Each.boot (h : Each Vfs.Named s) (a : Vfs.Bytes) : Keeps Vfs.Named (boot F a) s := by
  refine (Each.scanFrom a _ 0 false h).bind fun _ s₁ h₁ => ?_
  refine (Each.mkdirAll Each.mkdir 4 "/tmp" h₁).bind fun _ s₂ h₂ => ?_
  refine (Each.mkdirAll Each.mkdir 11 "/home/guest" h₂).bind fun _ s₃ h₃ => wp_nsVfs.mpr ?_
  exact h₃.set (((h₃ 1).addBuiltin ⟨by decide, by decide⟩).addBuiltin ⟨by decide, by decide⟩)

/-! ## Runs -/

theorem Each.serve (h : Each Vfs.Sound s) {r : Env × Req} (hr : r.2.Tidy s) : Keeps Vfs.Sound (serve F r) s :=
  (h.dispatch hr).bind fun _ _ h => h.pure _

/-- From a consistent start, no tree gets out of step as long as the requests are tidy. -/
theorem trees_stay_consistent {a : Vfs.Bytes} {b : β} {reqs : List (Env × Req)}
    (hboot : boot F a { blk := b } = (.ok (), s)) (hstart : Each Vfs.Consistent s)
    (hreqs : Along (serve F) (fun r s _ => r.2.Tidy s) reqs s) :
    Along (serve F) (fun _ _ s' => Each Vfs.Consistent s') reqs s := by
  have hnamed : Each Vfs.Named s := by
    have hw := Each.boot (F := F) (s := { blk := b }) (fun _ => Vfs.named_new) a
    unfold Keeps at hw
    rw [wp_of_eq hboot] at hw
    exact hw
  refine Along.of_inv (Each Vfs.Sound) (fun r s h hr => ?_) (fun ns => ⟨hnamed ns, hstart ns⟩) hreqs
  exact endsIn_mono (h.serve hr) fun s' h' => ⟨h', fun ns => (h' ns).consistent⟩

/-! ## A server without a block file system -/

def noBlockFs : BlockFs Unit where
  find _ := pure none
  mkdir _ := pure false
  create _ := pure false
  unlink _ := pure false
  rename _ _ := pure false
  symlink _ _ := pure false
  link _ _ := pure false
  readdir _ := pure none
  stat _ := pure none
  readlink _ := pure none
  truncate _ := pure false

/-- A string as a client sends it. -/
def text (path : String) : Text := some (nameBytes path)

/-- The server on an empty archive. -/
def fresh : Server Unit := (boot noBlockFs { len := 0, get := fun _ => 0#8 } { blk := () }).2

theorem boot_fresh : boot noBlockFs { len := 0, get := fun _ => 0#8 } { blk := () } = (.ok (), fresh) :=
  Cmd.eq_of_fst (by decide +kernel)

theorem pathExists_noBlockFs (v : Vfs) (path : String) :
    pathExists noBlockFs v path = pure (isVirtualPath path || (v.nodes (normalizePath path)).isSome) := by
  unfold Server.pathExists
  cases isVirtualPath path with
  | true => rfl
  | false =>
    cases stripMnt path with
    | none => rfl
    | some p => rfl

theorem Each.mkdir_noBlockFs {s : Server Unit} (path : String) (h : Each Vfs.Sound s) :
    Keeps Vfs.Sound (Server.mkdir noBlockFs ns path) s := by
  unfold Server.mkdir
  cases stripMnt path with
  | some p => exact h.onBlk _
  | none =>
    refine wp_nsVfs.mpr ?_
    rw [pathExists_noBlockFs, normalizePath_idem, wp_bind, wp_pure]
    cases hr : isVirtualPath (normalizePath path) || ((s.namespaces ns).nodes (normalizePath path)).isSome with
    | true => exact h.pure _
    | false =>
      have hnone : (s.namespaces ns).nodes (normalizePath path) = none :=
        Option.not_isSome_iff_eq_none.mp (by rw [(Bool.or_eq_false_iff.mp hr).2]; exact Bool.false_ne_true)
      exact h.commit fun v => (h ns).addNode hnone Vfs.bare_dir

theorem sound_addBuiltin {v : Vfs} {name : String} (h : v.Sound) (hn : ValidName name)
    (hb : Builtin (childPath "/" name)) : (addBuiltin name v).Sound := by
  unfold addBuiltin
  obtain ⟨cs, hcs⟩ := Option.isSome_iff_exists.mp h.named.root
  rw [hcs]
  dsimp only
  split_ifs
  · exact h
  · rw [Vfs.children_push hcs]
    have hr := Vfs.relists_dir hcs (childPath "/" name) (cs ++ [name])
    refine ⟨h.named.change hr (by decide) hn (h.named.valid_append hcs hn), h.consistent.change h.named hcs hn hr
      (.inr ?_) fun n hnb => ?_⟩
    · rw [Vfs.children_insert, if_neg (Vfs.root_ne_childPath (by decide) hn)]
    · have hne : n ≠ name := fun e => hnb (by rw [e]; exact hb)
      rw [if_neg hne, List.count_append, List.count_singleton, beq_false_of_ne hne.symm]
      rfl

/-- The trees of a server without an archive. -/
theorem sound_fresh : Each Vfs.Sound fresh := by
  have hstart : Each Vfs.Sound ({ blk := () } : Server Unit) := fun _ => ⟨Vfs.named_new, Vfs.consistent_new⟩
  have hboot : Keeps Vfs.Sound (boot noBlockFs { len := 0, get := fun _ => 0#8 }) { blk := () } := by
    refine (hstart.pure ()).bind fun _ s₁ h₁ => ?_
    refine (Each.mkdirAll Each.mkdir_noBlockFs 4 "/tmp" h₁).bind fun _ s₂ h₂ => ?_
    refine (Each.mkdirAll Each.mkdir_noBlockFs 11 "/home/guest" h₂).bind fun _ s₃ h₃ => wp_nsVfs.mpr ?_
    exact h₃.set (sound_addBuiltin (sound_addBuiltin (h₃ 1) ⟨by decide, by decide⟩ (.inl (by decide)))
      ⟨by decide, by decide⟩ (.inr (by decide)))
  unfold Keeps at hboot
  rw [wp_of_eq boot_fresh] at hboot
  exact hboot

attribute [irreducible] fresh

/-- A directory is made, gets a file and is removed; the file stays without a directory. -/
theorem unlink_leaves_file :
    let reqs := [({}, Req.opMkdir 1 (text "/a")), ({}, .opCreate 1 (text "/a/f")), ({}, .opUnlink 1 (text "/a"))]
    Each Vfs.Consistent fresh ∧ ∃ s, runAll (serve noBlockFs) reqs fresh = some s ∧ ¬(s.namespaces 1).Consistent := by
  intro reqs
  refine ⟨fun ns => (sound_fresh ns).consistent, ?_⟩
  have hrun : (runAll (serve noBlockFs) reqs fresh).map (fun s =>
      ((s.namespaces 1).nodes "/a/f", (s.namespaces 1).children "/a")) = some (some (.memFile []), none) := by
    decide +kernel
  obtain ⟨s, hs, hout⟩ := Option.map_eq_some_iff.mp hrun
  obtain ⟨hfile, hdir⟩ := Prod.mk.inj hout
  refine ⟨s, hs, fun hc => ?_⟩
  obtain ⟨dir, name, cs, hp, -, hcs, -⟩ := hc.listed "/a/f" (by rw [hfile]; rfl) (by decide)
    (not_or.mpr ⟨by decide, by decide⟩)
  rw [show parentAndName "/a/f" = some ("/a", "f") by decide +kernel] at hp
  cases hp
  rw [hdir] at hcs
  cases hcs

/-- A directory and a file in it. -/
theorem trees_stay_consistent_create : Along (serve noBlockFs) (fun _ _ s' => Each Vfs.Consistent s')
      [({}, .opMkdir 1 (text "/a")), ({}, .opCreate 1 (text "/a/f"))] fresh := by
  refine trees_stay_consistent boot_fresh (fun ns => (sound_fresh ns).consistent) ?_
  refine (along_cons (Cmd.eq_of_fst (by decide +kernel))).mpr ⟨fun p hp _ h => ?_, ?_⟩
  · cases (OpenV.Vfs.fromUtf8_nameBytes "/a").symm.trans hp
    exact absurd (by decide +kernel) h
  refine (along_cons (Cmd.eq_of_fst (by decide +kernel))).mpr ⟨fun p hp _ cs hcs => ?_, trivial⟩
  cases (OpenV.Vfs.fromUtf8_nameBytes "/a/f").symm.trans hp
  have hnone : (((serve noBlockFs ({}, .opMkdir 1 (text "/a")) fresh).2.namespaces 1).children
      (normalizePath "/a/f")) = none := by decide +kernel
  rw [hnone] at hcs
  cases hcs

end Server
end OpenV.FileServer
