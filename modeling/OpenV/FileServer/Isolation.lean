import OpenV.FileServer.TreeRuns

/- Mount namespaces. A request on paths outside `/mnt` reads and writes one namespace and
   the counter for descriptors (`dispatch_local`). For `open`, `create`, `mkdir`, `unlink`
   and `stat` that is the namespace named in the message, for all other requests it is the
   first one, whoever makes them. Clients that only use the namespace they are in do not
   see each other, except in the numbers of their descriptors. -/
namespace OpenV.FileServer

open Function
/-! ## Requests outside `/mnt` -/

/-- A path that does not lead to the block file system, by its text or its normal form. -/
def OffMnt (path : String) : Prop := stripMnt path = none ∧ stripMnt (normalizePath path) = none

instance (path : String) : Decidable (OffMnt path) := inferInstanceAs (Decidable (_ ∧ _))

/-- The path in a buffer, if there is one, is outside `/mnt`. -/
def Text.Off (t : Text) : Prop := ∀ bytes, t = some bytes → ∀ path, OpenV.Vfs.fromUtf8 bytes = some path → OffMnt path

theorem Text.Off.read {t : Text} (h : Text.Off t) {path : String} (hp : t.read = some path) : OffMnt path := by
  obtain ⟨bytes, hb, hp⟩ := Option.bind_eq_some_iff.mp hp
  exact h bytes hb path hp

theorem Text.Off.readLimited {t : Text} (h : Text.Off t) {path : String} (hp : t.readLimited = some path) :
    OffMnt path := by
  cases t with
  | none => cases hp
  | some bytes =>
    unfold Text.readLimited at hp
    dsimp only at hp
    split_ifs at hp
    exact h bytes rfl path hp

/-- The paths that a request works on are outside `/mnt`. -/
def Req.Off : Req → Prop
  | .opOpen _ path => Text.Off path
  | .opCreate _ path => Text.Off path
  | .opMkdir _ path => Text.Off path
  | .opUnlink _ path => Text.Off path
  | .opStat _ path => Text.Off path
  | .opGetdents path _ => Text.Off path
  | .opRename old new => Text.Off old ∧ Text.Off new
  | .opReadlink path _ => Text.Off path
  | .opSymlink link _ => Text.Off link
  | .opLink old new => Text.Off old ∧ Text.Off new

/-- The namespace that a request is served in. -/
def Req.nsUsed : Req → BitVec 32
  | .opOpen ns _ => ns
  | .opCreate ns _ => ns
  | .opMkdir ns _ => ns
  | .opUnlink ns _ => ns
  | .opStat ns _ => ns
  | _ => 1#32

namespace Server
variable {β α γ : Type} {F : BlockFs β}

/-- The command reads and writes the tree of one namespace. -/
def Local (ns : BitVec 32) (c : Cmd (Server β) α) : Prop :=
  ∃ f : Vfs → α × Vfs, ∀ s, c s =
    (.ok (f (s.namespaces ns)).1, { s with namespaces := update s.namespaces ns (f (s.namespaces ns)).2 })

theorem local_pure (ns : BitVec 32) (a : α) : Local ns (pure a : Cmd (Server β) α) := by
  refine ⟨fun v => (a, v), fun s => ?_⟩
  rw [update_eq_self]
  rfl

theorem local_nsVfs (ns : BitVec 32) : Local ns (nsVfs ns : Cmd (Server β) Vfs) := by
  refine ⟨fun v => (v, v), fun s => ?_⟩
  rw [update_eq_self]
  rfl

theorem local_setNs (ns : BitVec 32) (v : Vfs) : Local ns (setNs ns v : Cmd (Server β) Unit) := ⟨fun _ => ((), v), fun _ => rfl⟩

variable {path : String} {ns : BitVec 32} {env : Env} {r : Req}

theorem Local.bind {c : Cmd (Server β) α} {k : α → Cmd (Server β) γ} (hc : Local ns c) (hk : ∀ a, Local ns (k a)) :
    Local ns (c >>= k) := by
  obtain ⟨f, hf⟩ := hc
  choose g hg using hk
  refine ⟨fun v => g (f v).1 (f v).2, fun s => ?_⟩
  rw [Cmd.bind_ok (hf s), hg]
  dsimp only
  rw [update_self, update_idem]

theorem local_commit (ns : BitVec 32) (r : Option Vfs) : Local ns (commit ns r : Cmd (Server β) Bool) := by
  cases r with
  | none => exact local_pure ns false
  | some v => exact (local_setNs ns v).bind fun _ => local_pure ns true

theorem local_pathExists (ns : BitVec 32) (v : Vfs) (h : stripMnt path = none) :
    Local ns (pathExists F v path) := by
  unfold pathExists
  rw [h]
  split_ifs
  · exact local_pure ns _
  · exact local_pure ns _

theorem local_addUnlessExists (ns : BitVec 32) (node : FsNode) (h : stripMnt path = none) :
    Local ns (addUnlessExists F ns path node) := by
  refine (local_nsVfs ns).bind fun v => (local_pathExists ns v h).bind fun r => ?_
  cases r with
  | true => exact local_pure ns _
  | false => exact local_commit ns _

theorem local_onBoth {old new : String} {blk : String → String → Cmd β Bool} {mem : Vfs → String → String → Option Vfs}
    (ho : OffMnt old) (hn : OffMnt new) : Local 1 (onBoth old new blk mem) := by
  unfold onBoth
  rw [ho.1, hn.1]
  exact (local_nsVfs 1).bind fun v => local_commit 1 _

theorem local_withPath {path : Option String} {act : String → Cmd (Server β) Reply}
    (hact : ∀ p, path = some p → Local ns (act p)) : Local ns (withPath path act) := by
  cases path with
  | none => exact local_pure ns _
  | some p => exact hact p rfl

/-- The state after a request that leaves a tree and has a reply, or opens a descriptor instead. -/
def after (s : Server β) (ns : BitVec 32) (path : String) (out : Option Reply × Vfs) : Server β :=
  { s with
    namespaces := update s.namespaces ns out.2
    openTable := match out.1 with
      | some _ => s.openTable
      | none => s.openTable.openFile path ns }

/-- What a request does, from the tree of its namespace. -/
def Acts (F : BlockFs β) (env : Env) (r : Req) (path : String) (f : Vfs → Option Reply × Vfs) : Prop :=
  ∀ s : Server β, dispatch F env r s = (.ok ((f (s.namespaces r.nsUsed)).1.getD (.fd s.openTable.nextFd)),
    s.after r.nsUsed path (f (s.namespaces r.nsUsed)))

theorem acts_of_local (h : Local r.nsUsed (dispatch F env r)) : ∃ path f, Acts F env r path f := by
  obtain ⟨f, hf⟩ := h
  exact ⟨"", fun v => (some (f v).1, (f v).2), hf⟩

/-- `open` and `create`: a descriptor, or nothing. -/
theorem acts_of_open {path : Option String} {c : String → Cmd (Server β) Bool}
    (hr : dispatch F env r = withPath path fun p => do replyOpen r.nsUsed p (← c p))
    (hc : ∀ p, path = some p → Local r.nsUsed (c p)) : ∃ path f, Acts F env r path f := by
  cases path with
  | none =>
    refine acts_of_local ?_
    rw [hr]
    exact local_pure _ _
  | some p =>
    obtain ⟨f, hf⟩ := hc p rfl
    have hopen : ∀ (s : Server β) ok v, replyOpen r.nsUsed p ok { s with namespaces := update s.namespaces r.nsUsed v } =
        (.ok ((bif ok then none else some Reply.err).getD (.fd s.openTable.nextFd)),
          s.after r.nsUsed p (bif ok then none else some Reply.err, v)) := by
      intro s ok v
      cases ok <;> rfl
    refine ⟨p, fun v => (bif (f v).1 then none else some .err, (f v).2), fun s => ?_⟩
    have hstep : dispatch F env r s = replyOpen r.nsUsed p (f (s.namespaces r.nsUsed)).1
        { s with namespaces := update s.namespaces r.nsUsed (f (s.namespaces r.nsUsed)).2 } := by
      rw [hr]
      exact Cmd.bind_ok (hf s)
    rw [hstep]
    exact hopen s _ _

/-- A request outside `/mnt` works on its namespace. -/
theorem dispatch_local (F : BlockFs β) (env : Env) (h : r.Off) : ∃ path f, Acts F env r path f := by
  cases r with
  | opOpen ns path =>
    refine acts_of_open rfl fun p hp => ?_
    exact (local_nsVfs ns).bind fun v => local_pathExists ns v (h.readLimited hp).1
  | opCreate ns path =>
    refine acts_of_open rfl fun p hp => ?_
    unfold create
    rw [(h.read hp).1]
    exact (local_nsVfs ns).bind fun v => local_commit ns _
  | opMkdir ns path =>
    refine acts_of_local (local_withPath fun p hp => Local.bind ?_ fun ok => local_pure _ _)
    unfold mkdir
    rw [(h.read hp).1]
    exact local_addUnlessExists ns _ (h.read hp).2
  | opUnlink ns path =>
    refine acts_of_local (local_withPath fun p hp => Local.bind ?_ fun ok => local_pure _ _)
    unfold unlink
    rw [(h.read hp).1]
    exact (local_nsVfs ns).bind fun v => local_commit ns _
  | opStat ns path =>
    refine acts_of_local (local_withPath fun p hp => ?_)
    unfold opStat
    cases forwardStat env p with
    | some r => exact local_pure _ _
    | none =>
      refine Local.bind ?_ fun ok => local_pure _ _
      unfold stat
      rw [(h.read hp).1]
      cases virtualStat p with
      | some r => exact local_pure _ _
      | none => exact (local_nsVfs ns).bind fun v => local_pure ns _
  | opGetdents path bufLen =>
    refine acts_of_local (local_withPath fun p hp => ?_)
    unfold getdents
    rcases forwardList env p with _ | _ | data
    · have hread : Local 1 (readdir F env 1 p) := by
        unfold readdir
        rw [(h.readLimited hp).1]
        cases virtualReaddir env p with
        | some r => exact local_pure _ _
        | none => exact (local_nsVfs 1).bind fun v => local_pure 1 _
      refine hread.bind fun names => ?_
      cases names <;> exact local_pure _ _
    · exact local_pure _ _
    · exact local_pure _ _
  | opRename old new =>
    refine acts_of_local (local_withPath fun o ho => local_withPath fun n hn => Local.bind ?_ fun ok => local_pure _ _)
    exact local_onBoth (h.1.read ho) (h.2.read hn)
  | opReadlink path bufLen =>
    refine acts_of_local ?_
    unfold dispatch
    dsimp only
    split_ifs
    · exact local_pure _ _
    · refine local_withPath fun p hp => ?_
      unfold readlink
      rw [(h.readLimited hp).1]
      refine (local_nsVfs 1).bind fun v => ?_
      cases v.readlink p <;> exact local_pure _ _
  | opSymlink link target =>
    refine acts_of_local (local_withPath fun p hp => local_withPath fun t _ => Local.bind ?_ fun ok => local_pure _ _)
    unfold symlink
    rw [(h.readLimited hp).1]
    exact local_addUnlessExists 1 _ (h.readLimited hp).2
  | opLink old new =>
    refine acts_of_local (local_withPath fun o ho => local_withPath fun n hn => Local.bind ?_ fun ok => local_pure _ _)
    exact local_onBoth (h.1.readLimited ho) (h.2.readLimited hn)

/-! ## Two clients -/

/-- A request of one of two clients; `own` marks those of the client that is watched. -/
structure Call where
  own : Bool
  env : Env := {}
  req : Req

/-- What the client that is watched gets to see of a run. -/
def answers (F : BlockFs β) : List Call → Server β → List (Res Reply)
  | [], _ => []
  | c :: cs, s =>
    let out := dispatch F c.env c.req s
    if c.own then out.1 :: answers F cs out.2 else answers F cs out.2

/-- No request of the other client opens a file. -/
def OpensNothing (F : BlockFs β) : List Call → Server β → Prop
  | [], _ => True
  | c :: cs, s =>
    let out := dispatch F c.env c.req s
    (c.own = false → ∀ fd, out.1 ≠ .ok (.fd fd)) ∧ OpensNothing F cs out.2

section
variable {c : Call} {calls : List Call} {s s' : Server β} {r : Res Reply}

theorem answers_own (hown : c.own = true) (h : dispatch F c.env c.req s = (r, s')) :
    answers F (c :: calls) s = r :: answers F calls s' := by
  rw [answers, h, hown]
  rfl

theorem answers_other (hown : c.own = false) (h : dispatch F c.env c.req s = (r, s')) :
    answers F (c :: calls) s = answers F calls s' := by
  rw [answers, h, hown]
  rfl

theorem opensNothing_cons (h : dispatch F c.env c.req s = (r, s')) :
    OpensNothing F (c :: calls) s ↔ (c.own = false → ∀ fd, r ≠ .ok (.fd fd)) ∧ OpensNothing F calls s' := by
  rw [OpensNothing, h]

end

/-- An answer without the number of a descriptor. -/
def eraseFd : Res Reply → Res Reply
  | .ok (.fd _) => .ok (.fd 0)
  | r => r

/-- The two runs, with and without the other client's requests, from states that agree on the namespace of the client
that is watched. -/
theorem answers_agree {ns : Bool → BitVec 32} (hne : ns true ≠ ns false) {calls : List Call}
    (hcalls : ∀ c ∈ calls, c.req.Off ∧ c.req.nsUsed = ns c.own) :
    ∀ {s t : Server β}, s.namespaces (ns true) = t.namespaces (ns true) →
      (answers F calls s).map eraseFd = (answers F (calls.filter (·.own)) t).map eraseFd ∧
      (s.openTable.nextFd = t.openTable.nextFd → OpensNothing F calls s →
        answers F calls s = answers F (calls.filter (·.own)) t) := by
  induction calls with
  | nil => exact fun _ => ⟨rfl, fun _ _ => rfl⟩
  | cons c calls ih =>
    intro s t hst
    have ih := @ih fun d hd => hcalls d (.tail _ hd)
    obtain ⟨hoff, hns⟩ := hcalls c (.head _)
    obtain ⟨path, f, hf⟩ := dispatch_local F c.env hoff
    unfold Acts at hf
    rw [hns] at hf
    cases hown : c.own with
    | false =>
      rw [hown] at hf
      have hsame : (s.after (ns false) path (f (s.namespaces (ns false)))).namespaces (ns true) = t.namespaces (ns true) :=
        (update_of_ne hne _ _).trans hst
      rw [List.filter_cons_of_neg (by rw [hown]; exact Bool.false_ne_true), answers_other hown (hf s),
        opensNothing_cons (hf s)]
      refine ⟨(ih hsame).1, fun hfd hquiet => (ih hsame).2 ?_ hquiet.2⟩
      -- it got no descriptor, so the counter is where it was
      have hnone := hquiet.1 hown s.openTable.nextFd
      revert hnone
      rcases f (s.namespaces (ns false)) with ⟨_ | reply, v⟩
      · exact absurd rfl
      · exact fun _ => hfd
    | true =>
      rw [hown] at hf
      have hs := hf s
      rw [hst] at hs
      rw [List.filter_cons_of_pos (by rw [hown]), answers_own hown hs, answers_own hown (hf t), opensNothing_cons hs]
      have hsame : ∀ s' : Server β, (s'.after (ns true) path (f (t.namespaces (ns true)))).namespaces (ns true) =
          (f (t.namespaces (ns true))).2 := fun s' => update_self ..
      obtain ⟨herase, hexact⟩ := ih ((hsame s).trans (hsame t).symm)
      revert herase hexact
      rcases f (t.namespaces (ns true)) with ⟨_ | reply, v⟩
      · refine fun herase hexact => ⟨?_, fun hfd hquiet => List.cons_eq_cons.mpr ⟨?_, ?_⟩⟩
        · rw [List.map_cons]
          exact congrArg _ herase
        · exact congrArg (fun n => Res.ok (Reply.fd n)) hfd
        · exact hexact (congrArg (· + 1#32) hfd) hquiet.2
      · refine fun herase hexact => ⟨?_, fun hfd hquiet => congrArg _ (hexact hfd hquiet.2)⟩
        rw [List.map_cons]
        exact congrArg _ herase

/-- Two clients that use only the namespaces they are in: the requests of one change the answers to the other in the
numbers of descriptors at most, and not at all if they open nothing. -/
theorem namespaces_isolated (ns : Bool → BitVec 32) (hne : ns true ≠ ns false) {calls : List Call}
    (hcalls : ∀ c ∈ calls, c.req.Off ∧ c.req.nsUsed = ns c.own) (s : Server β) :
    (answers F calls s).map eraseFd = (answers F (calls.filter (·.own)) s).map eraseFd ∧
    (OpensNothing F calls s → answers F calls s = answers F (calls.filter (·.own)) s) :=
  ⟨(answers_agree hne hcalls rfl).1, (answers_agree hne hcalls rfl).2 rfl⟩

/-- A client in the second namespace makes a link, and a client in the first one reads it. -/
theorem symlink_crosses_namespaces :
    let calls : List Call := [{ own := false, req := .opSymlink (text "/x") (text "secret") },
      { own := true, req := .opReadlink (text "/x") 64 }]
    answers noBlockFs calls fresh = [.ok (.bytes (OpenV.Vfs.nameBytes "secret"))] ∧
      answers noBlockFs (calls.filter (·.own)) fresh = [.ok .err] := by
  decide +kernel

theorem off_text (path : String) (h : OffMnt path) : Text.Off (text path) := by
  intro bytes hb p hp
  cases hb
  rw [OpenV.Vfs.fromUtf8_nameBytes] at hp
  cases hp
  exact h

/-- A client in the second namespace makes a directory that a client in the first one does not see. -/
theorem namespaces_isolated_mkdir :
    let calls : List Call := [{ own := false, req := .opMkdir 2 (text "/a") }, { own := true, req := .opStat 1 (text "/a") }]
    answers noBlockFs calls fresh = answers noBlockFs (calls.filter (·.own)) fresh := by
  intro calls
  refine (namespaces_isolated (fun own => if own then 1 else 2) (by decide) (fun c hc => ?_) fresh).2 ?_
  · have hoff := off_text "/a" (by decide +kernel)
    simp only [calls, List.mem_cons, List.not_mem_nil, or_false] at hc
    rcases hc with rfl | rfl
    · exact ⟨hoff, rfl⟩
    · exact ⟨hoff, rfl⟩
  · have hmade := Cmd.eq_of_fst (show (dispatch noBlockFs {} (.opMkdir 2 (text "/a")) fresh).1 = .ok .ok by decide +kernel)
    refine (opensNothing_cons hmade).mpr ⟨fun _ fd h => (by cases h), ?_⟩
    exact ⟨fun h => (by cases h), trivial⟩

end Server
end OpenV.FileServer
