import OpenV.FileServer.Isolation

/- Spellings of a path. The tree in memory is looked up under the normal form of a path,
   but whether a request goes to the block file system, to `/dev` or to `/proc` is decided
   on the text that the client sent. `same_object_iff` says exactly which two spellings of
   a path are treated alike. -/
namespace OpenV.FileServer

open Server
open OpenV.Vfs (pathComponents nameBytes fromUtf8_nameBytes)

/-! ## Operations on a path -/

/-- The requests with a single path. -/
inductive PathOp where
  | opOpen (ns : BitVec 32)
  | opCreate (ns : BitVec 32)
  | opStat (ns : BitVec 32)
  | opUnlink (ns : BitVec 32)
  | opMkdir (ns : BitVec 32)
  | opGetdents (bufLen : Nat)

def PathOp.on : PathOp → String → Req
  | opOpen ns, path => .opOpen ns (some (nameBytes path))
  | opCreate ns, path => .opCreate ns (some (nameBytes path))
  | opStat ns, path => .opStat ns (some (nameBytes path))
  | opUnlink ns, path => .opUnlink ns (some (nameBytes path))
  | opMkdir ns, path => .opMkdir ns (some (nameBytes path))
  | opGetdents bufLen, path => .opGetdents (some (nameBytes path)) bufLen

/-- What the block file system makes of the text of a path: its components, and whether it begins with a slash. -/
def spelling (path : String) : List String × Bool := (pathComponents path, path.toList.head? = some '/')

/-- The block file system does not tell spellings with the same components apart. -/
structure BlockFs.Respects {β : Type} (F : BlockFs β) : Prop where
  find : ∀ p q, spelling p = spelling q → F.find p = F.find q
  mkdir : ∀ p q, spelling p = spelling q → F.mkdir p = F.mkdir q
  create : ∀ p q, spelling p = spelling q → F.create p = F.create q
  unlink : ∀ p q, spelling p = spelling q → F.unlink p = F.unlink q
  readdir : ∀ p q, spelling p = spelling q → F.readdir p = F.readdir q
  stat : ∀ p q, spelling p = spelling q → F.stat p = F.stat q

/-- What comes of a request: the reply, the trees, the block file system and the next descriptor. The text of the path
that is kept with a descriptor is left out. -/
def outcome {β : Type} (out : Res Reply × Server β) : Res Reply × (BitVec 32 → Vfs) × β × BitVec 32 :=
  (out.1, out.2.namespaces, out.2.blk, out.2.openTable.nextFd)

/-- Every operation does the same on both paths, in every state. -/
def SameAction (p q : String) : Prop :=
  ∀ (β : Type) (F : BlockFs β), F.Respects → ∀ (env : Env) (op : PathOp) (s : Server β),
    outcome (dispatch F env (op.on p) s) = outcome (dispatch F env (op.on q) s)

/-- A block file system that notes whether it is asked. -/
def spy : BlockFs Bool where
  find _ := fun _ => (.ok (some false), true)
  mkdir _ := fun _ => (.ok false, true)
  create _ := fun _ => (.ok false, true)
  unlink _ := fun _ => (.ok false, true)
  rename _ _ := fun _ => (.ok false, true)
  symlink _ _ := fun _ => (.ok false, true)
  link _ _ := fun _ => (.ok false, true)
  readdir _ := fun _ => (.ok none, true)
  stat _ := fun _ => (.ok none, true)
  readlink _ := fun _ => (.ok none, true)
  truncate _ := fun _ => (.ok false, true)

/-- The first component of the normal path is `mnt`. -/
def FirstIsMnt (path : String) : Prop := (normalComponents path).head? = some "mnt".toList

instance (path : String) : Decidable (FirstIsMnt path) := inferInstanceAs (Decidable (_ = _))

/-- Every operation goes to the block file system exactly if the first component is `mnt`. -/
def Routed (path : String) : Prop :=
  ∀ (env : Env) (op : PathOp) (s : Server Bool), s.blk = false →
    ((dispatch spy env (op.on path) s).2.blk = true ↔ FirstIsMnt path)

/-! ## What the text decides -/

/-- The limit that `open` and `getdents` have. -/
def Fits (path : String) : Prop := 0 < (nameBytes path).length ∧ (nameBytes path).length ≤ 1024

instance (path : String) : Decidable (Fits path) := inferInstanceAs (Decidable (_ ∧ _))

/-- A path with which `/dev` or `/proc` is meant, by its text. -/
def Special (path : String) : Prop :=
  path = "/proc" ∨ inProc path ∨ path = "/dev" ∨ "/dev/".toList.isPrefixOf path.toList

instance (path : String) : Decidable (Special path) := inferInstanceAs (Decidable (_ ∨ _ ∨ _ ∨ _))

/-- The text leads where the normal form does. -/
def WellRouted (path : String) : Prop :=
  (stripMnt path ≠ none ∧ FirstIsMnt path ∧ Fits path) ∨
    (stripMnt path = none ∧ stripMnt (normalizePath path) = none ∧ ¬FirstIsMnt path)

/-- The texts are treated alike. -/
def Alike (p q : String) : Prop :=
  p = q ∨ (∃ p' q', stripMnt p = some p' ∧ stripMnt q = some q' ∧ spelling p' = spelling q') ∨
    (stripMnt p = none ∧ stripMnt q = none ∧ ¬Special p ∧ ¬Special q ∧ (Fits p ↔ Fits q))

section
variable {path : String}

theorem readLimited_of_fits (h : Fits path) : Text.readLimited (some (nameBytes path)) = some path := by
  unfold Text.readLimited
  dsimp only
  rw [if_neg (by have := h.1; have := h.2; omega), fromUtf8_nameBytes]

theorem readLimited_of_not_fits (h : ¬Fits path) : Text.readLimited (some (nameBytes path)) = none := by
  unfold Text.readLimited
  dsimp only
  rw [if_pos]
  unfold Fits at h
  omega

-- the paths that are not special

theorem special_of_virtual (h : isVirtualPath path = true) : Special path := by
  unfold isVirtualPath at h
  simp only [Bool.or_eq_true, decide_eq_true_eq] at h
  rcases h with ((((rfl | rfl) | rfl) | rfl) | rfl) | h
  · exact .inr (.inr (.inl rfl))
  · exact .inr (.inr (.inr (by decide)))
  · exact .inr (.inr (.inr (by decide)))
  · exact .inr (.inr (.inr (by decide)))
  · exact .inl rfl
  · exact .inr (.inl h)

theorem isVirtualPath_plain (h : ¬Special path) : isVirtualPath path = false :=
  Bool.eq_false_iff.mpr fun hv => h (special_of_virtual hv)

theorem virtualStat_plain (h : ¬Special path) : virtualStat path = none := by
  unfold virtualStat
  rw [if_neg, if_neg, if_neg fun hp => h (.inr (.inl hp))]
  · rintro (rfl | rfl | rfl)
    · exact h (.inr (.inr (.inr (by decide))))
    · exact h (.inr (.inr (.inr (by decide))))
    · exact h (.inr (.inr (.inr (by decide))))
  · rintro (rfl | rfl)
    · exact h (.inr (.inr (.inl rfl)))
    · exact h (.inl rfl)

theorem virtualReaddir_plain (h : ¬Special path) (env : Env) : virtualReaddir env path = none := by
  unfold virtualReaddir
  rw [if_neg fun hp => h (.inr (.inr (.inl hp))), if_neg fun hp => h (.inl hp), if_neg fun hp => h (.inr (.inl hp.1))]

theorem forwardStat_plain (h : ¬Special path) (env : Env) : forwardStat env path = none := by
  unfold forwardStat
  rw [if_neg, if_neg]
  · rintro ⟨hp | hp, -⟩
    · exact h (.inr (.inr (.inl hp)))
    · exact h (.inr (.inr (.inr hp)))
  · rintro ⟨hp | hp, -⟩
    · exact h (.inl hp)
    · exact h (.inr (.inl hp))

theorem forwardList_plain (h : ¬Special path) (env : Env) : forwardList env path = none := by
  unfold forwardList
  rw [if_neg, if_neg fun hp => h (.inr (.inr (.inl hp.1)))]
  rintro ⟨hp | hp, -⟩
  · exact h (.inl hp)
  · exact h (.inr (.inl hp))

/-- The first characters of a path. -/
theorem stripMnt_second {p' : String} (h : stripMnt path = some p') : path.toList.take 2 = ['/', 'm'] := by
  unfold stripMnt at h
  by_cases hp : "/mnt".toList.isPrefixOf path.toList
  · obtain ⟨rest, hrest⟩ := List.isPrefixOf_iff_prefix.mp hp
    rw [← hrest]
    rfl
  · rw [if_neg hp] at h
    cases h

theorem plain_of_stripMnt {p' : String} (h : stripMnt path = some p') : ¬Special path := by
  have h2 := stripMnt_second h
  rintro (rfl | hp | rfl | hp)
  · exact absurd h2 (by decide)
  · obtain ⟨rest, hrest⟩ := List.isPrefixOf_iff_prefix.mp hp
    rw [← hrest, List.take_append_of_le_length (by decide)] at h2
    exact absurd h2 (by decide)
  · exact absurd h2 (by decide)
  · obtain ⟨rest, hrest⟩ := List.isPrefixOf_iff_prefix.mp hp
    rw [← hrest, List.take_append_of_le_length (by decide)] at h2
    exact absurd h2 (by decide)

end

/-! ## Alike -/

namespace PathOp
variable {β : Type}

/-- The operation, once the path is read. -/
def act (F : BlockFs β) (env : Env) : PathOp → String → Cmd (Server β) Reply
  | opOpen ns, path => do
    let v ← nsVfs ns
    replyOpen ns path (← pathExists F v path)
  | opCreate ns, path => do replyOpen ns path (← create F ns path)
  | opStat ns, path => Server.opStat F env ns path
  | opUnlink ns, path => do return replyBool (← unlink F ns path)
  | opMkdir ns, path => do return replyBool (← mkdir F ns path)
  | opGetdents bufLen, path => getdents F env bufLen path

/-- The operations that look at the length of the path. -/
def limited : PathOp → Bool
  | opOpen _ => true
  | opGetdents _ => true
  | _ => false

/-- The path as the operation reads it. -/
def read (op : PathOp) (path : String) : Option String := if op.limited ∧ ¬Fits path then none else some path

theorem dispatch_on (F : BlockFs β) (env : Env) (op : PathOp) (path : String) :
    dispatch F env (op.on path) = withPath (op.read path) (op.act F env) := by
  have hshort : Text.read (some (nameBytes path)) = some path := fromUtf8_nameBytes path
  have hlong : Text.readLimited (some (nameBytes path)) = if ¬Fits path then none else some path := by
    by_cases hf : Fits path
    · rw [if_neg (not_not.mpr hf), readLimited_of_fits hf]
    · rw [if_pos hf, readLimited_of_not_fits hf]
  unfold read
  cases op with
  | opOpen | opGetdents =>
    rw [on, dispatch, hlong]
    simp only [limited, true_and]
    rfl
  | _ =>
    rw [on, dispatch, hshort]
    rfl

/-- The text that a descriptor is opened with is not part of the outcome. -/
theorem outcome_replyOpen {c : Cmd (Server β) Bool} (ns : BitVec 32) (p q : String) (s : Server β) :
    outcome ((do replyOpen ns p (← c) : Cmd (Server β) Reply) s) =
      outcome ((do replyOpen ns q (← c) : Cmd (Server β) Reply) s) := by
  show outcome (Cmd.bind c _ s) = outcome (Cmd.bind c _ s)
  unfold Cmd.bind
  rcases c s with ⟨ok | e | e, s'⟩
  · cases ok <;> rfl
  · rfl
  · rfl

/-- What depends on the spelling in the block file system only. -/
theorem route_congr {α : Type} {f : String → α} {g : α} {p q : String}
    (hm : (stripMnt p = none ∧ stripMnt q = none) ∨
      ∃ p' q', stripMnt p = some p' ∧ stripMnt q = some q' ∧ spelling p' = spelling q')
    (hf : ∀ p' q', spelling p' = spelling q' → f p' = f q') :
    (match stripMnt p with | some p' => f p' | none => g) = match stripMnt q with | some q' => f q' | none => g := by
  rcases hm with ⟨h, h'⟩ | ⟨p', q', h, h', he⟩
  · rw [h, h']
  · rw [h, h']
    exact hf p' q' he

/-- Two texts that both lead to the tree in memory, or to the same place in the block file system. -/
theorem same_act {F : BlockFs β} (hF : F.Respects) {p q : String} (hn : normalizePath p = normalizePath q)
    (hp : ¬Special p) (hq : ¬Special q) (hm : (stripMnt p = none ∧ stripMnt q = none) ∨
      ∃ p' q', stripMnt p = some p' ∧ stripMnt q = some q' ∧ spelling p' = spelling q')
    (env : Env) (op : PathOp) (s : Server β) : outcome (op.act F env p s) = outcome (op.act F env q s) := by
  have hexists : ∀ v, pathExists F v p = pathExists F v q := fun v => by
    unfold pathExists
    rw [isVirtualPath_plain hp, isVirtualPath_plain hq, hn]
    exact route_congr hm fun p' q' he => by rw [hF.find p' q' he]
  cases op with
  | opOpen ns =>
    show outcome ((do replyOpen ns p (← pathExists F (s.namespaces ns) p) : Cmd (Server β) Reply) s) =
      outcome ((do replyOpen ns q (← pathExists F (s.namespaces ns) q) : Cmd (Server β) Reply) s)
    rw [hexists]
    exact outcome_replyOpen ns p q s
  | opCreate ns =>
    have hc : create F ns p = create F ns q := by
      unfold create
      rw [hn]
      exact route_congr hm fun p' q' he => by rw [hF.create p' q' he]
    rw [act, hc]
    exact outcome_replyOpen ns p q s
  | opStat ns =>
    have hc : stat F ns p = stat F ns q := by
      unfold stat
      rw [virtualStat_plain hp, virtualStat_plain hq, hn]
      exact route_congr hm fun p' q' he => by rw [hF.stat p' q' he]
    show outcome (Server.opStat F env ns p s) = outcome (Server.opStat F env ns q s)
    unfold Server.opStat
    rw [forwardStat_plain hp, forwardStat_plain hq, hc]
  | opUnlink ns =>
    have hc : unlink F ns p = unlink F ns q := by
      unfold unlink
      rw [hn]
      exact route_congr hm fun p' q' he => by rw [hF.unlink p' q' he]
    rw [act, act, hc]
  | opMkdir ns =>
    have hc : mkdir F ns p = mkdir F ns q := by
      unfold mkdir
      rw [hn]
      exact route_congr hm fun p' q' he => by rw [hF.mkdir p' q' he]
    rw [act, act, hc]
  | opGetdents bufLen =>
    have hc : readdir F env 1 p = readdir F env 1 q := by
      unfold readdir
      rw [virtualReaddir_plain hp, virtualReaddir_plain hq, hn]
      exact route_congr hm fun p' q' he => by rw [hF.readdir p' q' he]
    show outcome (getdents F env bufLen p s) = outcome (getdents F env bufLen q s)
    unfold getdents
    rw [forwardList_plain hp, forwardList_plain hq, hc]

end PathOp

/-! ## Telling spellings apart -/

variable {p' p q path : String} {β α : Type} {b : Bool}

/-- The normal form has the components. -/
theorem firstIsMnt_congr (h : normalizePath p = normalizePath q) : FirstIsMnt p ↔ FirstIsMnt q := by
  unfold FirstIsMnt
  rw [← normalComponents_normalizePath p, h, normalComponents_normalizePath]

/-- A block file system in which the paths that are spelled in one way exist. -/
def onlyAt (sp : List String × Bool) : BlockFs Unit :=
  { noBlockFs with find := fun p => pure (some (spelling p = sp)) }

theorem respects_onlyAt (sp : List String × Bool) : (onlyAt sp).Respects where
  find p q h := by
    show pure (some (decide (spelling p = sp))) = pure (some (decide (spelling q = sp)))
    rw [h]
  mkdir _ _ _ := rfl
  create _ _ _ := rfl
  unlink _ _ _ := rfl
  readdir _ _ _ := rfl
  stat _ _ _ := rfl

theorem respects_noBlockFs : noBlockFs.Respects where
  find _ _ _ := rfl
  mkdir _ _ _ := rfl
  create _ _ _ := rfl
  unlink _ _ _ := rfl
  readdir _ _ _ := rfl
  stat _ _ _ := rfl

/-- `open` in the block file system. -/
theorem open_onlyAt (sp : List String × Bool) (hm : stripMnt path = some p') (hf : Fits path) (s : Server Unit) :
    (Server.dispatch (onlyAt sp) {} ((PathOp.opOpen 1).on path) s).1 =
      if spelling p' = sp then .ok (.fd s.openTable.nextFd) else .ok .err := by
  have hex : ∀ v, pathExists (onlyAt sp) v path = pure (decide (spelling p' = sp)) := fun v => by
    unfold pathExists
    rw [isVirtualPath_plain (plain_of_stripMnt hm), hm]
    rfl
  rw [PathOp.dispatch_on, PathOp.read, if_neg fun h => h.2 hf]
  show (Cmd.bind (pathExists (onlyAt sp) (s.namespaces 1) path) _ s).1 = _
  rw [hex]
  by_cases he : spelling p' = sp
  · rw [if_pos he, decide_eq_true he]
    rfl
  · rw [if_neg he, decide_eq_false he]
    rfl

/-- A server whose trees all have the one node. -/
def withNode (path : String) (node : Option FsNode) : Server Unit where
  namespaces := fun _ => ⟨fun q => if q = path then node else none⟩
  blk := ()

/-- `open` in the tree in memory. -/
theorem open_withNode (hs : ¬Special path) (hf : Fits path) (node : FsNode) :
    (Server.dispatch Server.noBlockFs {} ((PathOp.opOpen 1).on path)
      (withNode (normalizePath path) (some node))).1 = .ok (.fd 1) := by
  have hex : pathExists noBlockFs ((withNode (normalizePath path) (some node)).namespaces 1) path =
      pure true := by
    rw [pathExists_noBlockFs, isVirtualPath_plain hs]
    unfold withNode
    dsimp only
    rw [if_pos rfl]
    rfl
  rw [PathOp.dispatch_on, PathOp.read, if_neg fun h => h.2 hf]
  show (Cmd.bind (pathExists _ _ path) _ _).1 = _
  rw [hex]
  rfl

theorem open_not_fits {F : BlockFs β} {e : Env} (hf : ¬Fits path) (s : Server β) :
    Server.dispatch F e ((PathOp.opOpen 1).on path) s = (.ok .err, s) := by
  rw [PathOp.dispatch_on, PathOp.read, if_pos ⟨rfl, hf⟩]
  rfl

/-- Other servers that know a single path. -/
def knowing (path : String) : Env where
  procStat := some fun q => if q = path then some (true, 0) else none
  devStat := some fun q => if q = path then some (true, 0) else none

theorem forwardStat_knowing (h : Special q) :
    forwardStat (knowing path) q = some (if q = path then some (true, 0) else none) := by
  unfold forwardStat knowing
  by_cases hp : q = "/proc" ∨ inProc q = true
  · rw [if_pos ⟨hp, rfl⟩]
    rfl
  · rw [if_neg fun hh => hp hh.1, if_pos]
    · rfl
    · refine ⟨?_, rfl⟩
      rcases h with h | h | h | h
      · exact absurd (.inl h) hp
      · exact absurd (.inr h) hp
      · exact .inl h
      · exact .inr h

/-- `stat` of a special path and of another one. -/
theorem stat_knowing (hq : stripMnt q = none) (hne : q ≠ path) :
    (Server.dispatch Server.noBlockFs (knowing path) ((PathOp.opStat 1).on q) (withNode "" none)).1 = .ok .err := by
  rw [PathOp.dispatch_on, PathOp.read]
  show (opStat _ _ _ _ _).1 = _
  unfold opStat
  by_cases hs : Special q
  · rw [forwardStat_knowing hs, if_neg hne]
    rfl
  · rw [forwardStat_plain hs]
    unfold stat
    rw [virtualStat_plain hs, hq]
    show (Res.ok (replyStat (Vfs.statNode _ _)) : Res Reply) = _
    have hnone : ((withNode "" none).namespaces 1).statNode (normalizePath q) = none := by
      unfold Vfs.statNode withNode
      dsimp only
      split_ifs <;> rfl
    rw [hnone]
    rfl

theorem stat_known (hs : Special path) :
    (Server.dispatch Server.noBlockFs (knowing path) ((PathOp.opStat 1).on path) (withNode "" none)).1 =
      .ok (.stat true 0) := by
  rw [PathOp.dispatch_on, PathOp.read]
  show (opStat _ _ _ _ _).1 = _
  unfold opStat
  rw [forwardStat_knowing hs, if_pos rfl]
  rfl

/-- If one of two different texts is special, they are not treated alike. -/
theorem plain_of_same (h : SameAction p q) (hq : stripMnt q = none) (hne : p ≠ q) : ¬Special p := by
  intro hs
  have hout := congrArg Prod.fst (h Unit noBlockFs respects_noBlockFs (knowing p) (.opStat 1) (withNode "" none))
  have hp := stat_known hs
  have hq := stat_knowing hq hne.symm
  exact absurd (hp.symm.trans (hout.trans hq)) (by decide)

theorem fits_of_same (h : SameAction p q) (hs : ¬Special p) (hf : Fits p) : Fits q := by
  by_contra hq
  have hout := congrArg Prod.fst (h Unit noBlockFs respects_noBlockFs {} (.opOpen 1)
    (withNode (normalizePath p) (some (.dir []))))
  have hopen := open_withNode hs hf (.dir [])
  have hrefused := congrArg Prod.fst (open_not_fits (F := noBlockFs) (e := {}) hq
    (withNode (normalizePath p) (some (.dir []))))
  have : (Res.ok (.fd 1) : Res Reply) = .ok .err := hopen.symm.trans (hout.trans hrefused)
  cases this

/-! ## Which paths are routed well -/

/-- `spy` is asked by every operation on the text of a path in the block file system. -/
theorem asks_spy (hm : stripMnt path = some p') (hf : Fits path) (env : Env) (op : PathOp) (s : Server Bool) :
    (dispatch spy env (op.on path) s).2.blk = true := by
  have hp := plain_of_stripMnt hm
  rw [PathOp.dispatch_on, PathOp.read, if_neg fun h => h.2 hf]
  cases op with
  | opOpen ns =>
    show (Cmd.bind (pathExists spy (s.namespaces ns) path) _ s).2.blk = true
    unfold pathExists
    rw [isVirtualPath_plain hp, hm]
    rfl
  | opCreate ns =>
    show (Cmd.bind (create spy ns path) _ s).2.blk = true
    unfold create
    rw [hm]
    rfl
  | opStat ns =>
    show (opStat spy env ns path s).2.blk = true
    unfold opStat stat
    rw [forwardStat_plain hp, virtualStat_plain hp, hm]
    rfl
  | opUnlink ns =>
    show (Cmd.bind (unlink spy ns path) _ s).2.blk = true
    unfold unlink
    rw [hm]
    rfl
  | opMkdir ns =>
    show (Cmd.bind (mkdir spy ns path) _ s).2.blk = true
    unfold mkdir
    rw [hm]
    rfl
  | opGetdents bufLen =>
    show (getdents spy env bufLen path s).2.blk = true
    unfold getdents readdir
    rw [forwardList_plain hp, virtualReaddir_plain hp, hm]
    rfl

-- What the steps after the last request to the block file system leave of the note.

theorem blk_commit (nsId : BitVec 32) (v : Option Vfs) (s : Server Bool) : (commit nsId v s).2.blk = s.blk := by
  cases v <;> rfl

theorem blk_bind {c : Cmd (Server Bool) α} {f : α → Cmd (Server Bool) β} {s : Server Bool} (h : (c s).2.blk = b)
    (hf : ∀ a s', (f a s').2.blk = s'.blk) : ((c >>= f) s).2.blk = b := by
  show (Cmd.bind c f s).2.blk = b
  revert h
  unfold Cmd.bind
  rcases c s with ⟨a | e | e, s'⟩
  · exact (hf a s').trans
  · exact id
  · exact id

theorem blk_replyOpen {c : Cmd (Server Bool) Bool} (ns : BitVec 32) (path : String) (s : Server Bool)
    (h : (c s).2.blk = b) : ((do replyOpen ns path (← c) : Cmd (Server Bool) Reply) s).2.blk = b :=
  blk_bind h fun ok _ => by cases ok <;> rfl

theorem blk_map {c : Cmd (Server Bool) α} (f : α → Reply) (s : Server Bool) (h : (c s).2.blk = b) :
    ((do return f (← c) : Cmd (Server Bool) Reply) s).2.blk = b :=
  blk_bind h fun _ _ => rfl

theorem blk_pathExists (hm : stripMnt path = none) (v : Vfs) (s : Server Bool) :
    (pathExists spy v path s).2.blk = s.blk := by
  unfold pathExists
  rw [hm]
  split_ifs <;> rfl

/-- A new node in the tree in memory: all that can be asked is whether its path exists. -/
theorem blk_addUnlessExists (ns : BitVec 32) (node : FsNode) (s : Server Bool)
    (h : ∀ v, (pathExists spy v path s).2.blk = b) : (addUnlessExists spy ns path node s).2.blk = b := by
  rw [addUnlessExists, Cmd.bind_ok (show nsVfs ns s = (.ok (s.namespaces ns), s) from rfl)]
  refine blk_bind (h (s.namespaces ns)) fun ok s' => ?_
  cases ok with
  | true => rfl
  | false => exact blk_commit ns ((s.namespaces ns).addNode path node) s'

theorem leaves_spy (h : OffMnt path) (env : Env) (op : PathOp) (s : Server Bool) :
    (dispatch spy env (op.on path) s).2.blk = s.blk := by
  have htext : Text.Off (some (nameBytes path)) := by
    intro bytes hb p hp
    cases hb
    rw [fromUtf8_nameBytes] at hp
    cases hp
    exact h
  have hoff : (op.on path).Off := by cases op <;> exact htext
  obtain ⟨p, f, hact⟩ := dispatch_local spy env hoff
  rw [hact s]
  rfl

/-- `mkdir` goes to the block file system with a path that begins there only in its normal form. -/
theorem mkdir_asks_spy (hm : stripMnt path = none) (hn : stripMnt (normalizePath path) = some p') (s : Server Bool) :
    (Server.dispatch spy {} ((PathOp.opMkdir 1).on path) s).2.blk = true := by
  rw [PathOp.dispatch_on, PathOp.read]
  refine blk_map replyBool s ?_
  unfold mkdir
  rw [hm]
  refine blk_addUnlessExists 1 _ s fun v => ?_
  unfold pathExists
  rw [isVirtualPath_plain (plain_of_stripMnt hn), hn]
  rfl

/-- `create` has no limit for the length of the path. -/
theorem create_asks_spy (hm : stripMnt path = some p') (s : Server Bool) :
    (Server.dispatch spy {} ((PathOp.opCreate 1).on path) s).2.blk = true := by
  rw [PathOp.dispatch_on, PathOp.read]
  refine blk_replyOpen 1 path s ?_
  unfold create
  rw [hm]
  rfl

/-- A server without files. -/
def unasked : Server Bool where
  namespaces := fun _ => ⟨fun _ => none⟩
  blk := false

/-- A path is routed by its normal form exactly if its text says the same. -/
theorem routed_iff (path : String) : Routed path ↔ WellRouted path := by
  constructor
  · intro h
    cases hm : stripMnt path with
    | some p' =>
      have hfirst : FirstIsMnt path := (h {} (.opCreate 1) unasked rfl).mp (create_asks_spy hm unasked)
      refine .inl ⟨Option.ne_none_iff_exists'.mpr ⟨p', hm⟩, hfirst, ?_⟩
      by_contra hf
      have hasks := (h {} (.opOpen 1) unasked rfl).mpr hfirst
      rw [open_not_fits hf] at hasks
      cases hasks
    | none =>
      have hquiet : (Server.dispatch spy {} ((PathOp.opOpen 1).on path) unasked).2.blk = false := by
        rw [PathOp.dispatch_on, PathOp.read]
        by_cases hf : (PathOp.opOpen 1).limited = true ∧ ¬Fits path
        · rw [if_pos hf]
          rfl
        · rw [if_neg hf]
          exact blk_replyOpen 1 path unasked (blk_pathExists hm _ unasked)
      have hfirst : ¬FirstIsMnt path := fun hfirst =>
        Bool.false_ne_true (hquiet.symm.trans ((h {} (.opOpen 1) unasked rfl).mpr hfirst))
      refine .inr ⟨hm, ?_, hfirst⟩
      cases hn : stripMnt (normalizePath path) with
      | none => rfl
      | some p' => exact absurd ((h {} (.opMkdir 1) unasked rfl).mp (mkdir_asks_spy hm hn unasked)) hfirst
  · rintro (⟨hm, hfirst, hf⟩ | ⟨hm, hn, hfirst⟩) env op s hs
    · obtain ⟨p', hp'⟩ := Option.ne_none_iff_exists'.mp hm
      exact iff_of_true (asks_spy hp' hf env op s) hfirst
    · rw [leaves_spy ⟨hm, hn⟩ env op s, hs]
      exact iff_of_false Bool.false_ne_true hfirst

/-! ## Two spellings -/

theorem WellRouted.fits (h : WellRouted path) (hm : stripMnt path = some p') : Fits path := by
  rcases h with ⟨-, -, hf⟩ | ⟨hnone, -⟩
  · exact hf
  · exact nomatch hm.symm.trans hnone

/-- Two texts that are treated alike have the same outcome. -/
theorem sameAction_of_alike (hn : normalizePath p = normalizePath q) (hp : WellRouted p) (hq : WellRouted q)
    (h : Alike p q) : SameAction p q := by
  rcases h with rfl | ⟨p', q', hm, hm', he⟩ | ⟨hm, hm', hs, hs', hf⟩
  · exact fun _ _ _ _ _ _ => rfl
  · intro β F hF env op s
    rw [PathOp.dispatch_on, PathOp.dispatch_on, PathOp.read, PathOp.read, if_neg fun h => h.2 (hp.fits hm),
      if_neg fun h => h.2 (hq.fits hm')]
    exact PathOp.same_act hF hn (plain_of_stripMnt hm) (plain_of_stripMnt hm') (.inr ⟨p', q', hm, hm', he⟩) env op s
  · intro β F hF env op s
    rw [PathOp.dispatch_on, PathOp.dispatch_on, PathOp.read, PathOp.read]
    by_cases hl : op.limited = true ∧ ¬Fits p
    · rw [if_pos hl, if_pos ⟨hl.1, fun h => hl.2 (hf.mpr h)⟩]
    · rw [if_neg hl, if_neg fun h => hl ⟨h.1, fun hfp => h.2 (hf.mp hfp)⟩]
      exact PathOp.same_act hF hn hs hs' (.inl ⟨hm, hm'⟩) env op s

/-- Two texts that differ and are routed to the block file system. -/
theorem spelling_of_same {q' : String} (h : SameAction p q) (hm : stripMnt p = some p') (hm' : stripMnt q = some q')
    (hf : Fits p) (hf' : Fits q) : spelling p' = spelling q' := by
  have hout := congrArg Prod.fst (h Unit (onlyAt (spelling p')) (respects_onlyAt _) {} (.opOpen 1) (withNode "" none))
  have hopen := open_onlyAt (spelling p') hm hf (withNode "" none)
  have hother := open_onlyAt (spelling p') hm' hf' (withNode "" none)
  rw [if_pos rfl] at hopen
  by_contra hne
  rw [if_neg (Ne.symm hne)] at hother
  have : (Res.ok (.fd 1) : Res Reply) = .ok .err := hopen.symm.trans (hout.trans hother)
  cases this

theorem sameAction_symm (h : SameAction p q) : SameAction q p :=
  fun β F hF env op s => (h β F hF env op s).symm

theorem alike_of_sameAction (hn : normalizePath p = normalizePath q) (hp : WellRouted p) (hq : WellRouted q)
    (h : SameAction p q) : Alike p q := by
  by_cases hpq : p = q
  · exact .inl hpq
  rcases hp with ⟨hm, hfirst, hf⟩ | ⟨hm, -, hfirst⟩
  · rcases hq with ⟨hm', -, hf'⟩ | ⟨-, -, hfirst'⟩
    · obtain ⟨p', hp'⟩ := Option.ne_none_iff_exists'.mp hm
      obtain ⟨q', hq'⟩ := Option.ne_none_iff_exists'.mp hm'
      exact .inr (.inl ⟨p', q', hp', hq', spelling_of_same h hp' hq' hf hf'⟩)
    · exact absurd ((firstIsMnt_congr hn).mp hfirst) hfirst'
  · rcases hq with ⟨-, hfirst', -⟩ | ⟨hm', -, -⟩
    · exact absurd ((firstIsMnt_congr hn).mpr hfirst') hfirst
    · have hs : ¬Special p := plain_of_same h hm' hpq
      have hs' : ¬Special q := plain_of_same (sameAction_symm h) hm (Ne.symm hpq)
      exact .inr (.inr ⟨hm, hm', hs, hs', fits_of_same h hs, fits_of_same (sameAction_symm h) hs'⟩)

end OpenV.FileServer
