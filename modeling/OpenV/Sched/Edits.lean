import OpenV.Sched.Exit

/- What `exit` and `sys_kill` can do to a process: `Edit` lists the changes they
   make, and `exit_edits` says that they make no other. A property of processes
   that no edit breaks survives both. -/
namespace OpenV.Sched

namespace Os

/-- Both states have the same processes, related by `R`. -/
def Each (R : Proc → Proc → Prop) (s s' : Os) : Prop := ∀ q, Option.Rel R (s.proc q) (s'.proc q)

section Rel
variable {R S T : Proc → Proc → Prop} {a b c : Option Proc} {p : Proc}

theorem rel_trans (h : Option.Rel R a b) (h' : Option.Rel S b c) (ht : ∀ p p' p'', R p p' → S p' p'' → T p p'') :
    Option.Rel T a c := by
  cases h with
  | none =>
    cases h'
    exact .none
  | some hab =>
    cases h' with
    | some hbc => exact .some (ht _ _ _ hab hbc)

theorem rel_some (h : Option.Rel R a b) (hp : a = some p) : ∃ p', b = some p' ∧ R p p' := by
  subst hp
  cases h with
  | some hR => exact ⟨_, rfl, hR⟩

/-- Read backwards. -/
theorem rel_of_some (h : Option.Rel R a b) (hp : b = some p) : ∃ p', a = some p' ∧ R p' p := by
  subst hp
  cases h with
  | some hR => exact ⟨_, rfl, hR⟩

theorem rel_elim {β : Type} {F G : Proc → β} (h : Option.Rel R a b) (hF : ∀ {p p'}, a = some p → R p p' → F p' = G p)
    (d : β) : b.elim d F = a.elim d G := by
  cases h with
  | none => rfl
  | some hR => exact hF rfl hR

end Rel

section Each
variable {R : Proc → Proc → Prop} {s s' s'' : Os} {f : Proc → Proc} {k : Pid}

theorem Each.refl (hr : ∀ p, R p p) (s : Os) : s.Each R s := fun q => by
  cases s.proc q with
  | none => exact .none
  | some p => exact .some (hr p)

theorem Each.trans (ht : ∀ {p p' p''}, R p p' → R p' p'' → R p p'') (h : s.Each R s') (h' : s'.Each R s'') :
    s.Each R s'' := fun q => rel_trans (h q) (h' q) fun _ _ _ => ht

/-- The processes are the same. -/
theorem Each.of_proc (hr : ∀ p, R p p) (h : ∀ q, s'.proc q = s.proc q) : s.Each R s' := fun q => by
  rw [h q]
  exact Each.refl hr s q

theorem Each.setProc (hr : ∀ p, R p p) (h : ∀ p, s.proc k = some p → R p (f p)) : s.Each R (s.setProc k f) :=
  fun q => by
    rw [proc_setProc]
    split
    · rename_i e
      subst e
      cases hq : s.proc q with
      | none => exact .none
      | some p => exact .some (h p hq)
    · exact Each.refl hr s q

theorem Each.some {p : Proc} {q : Pid} (h : s.Each R s') (hp : s.proc q = some p) :
    ∃ p', s'.proc q = some p' ∧ R p p' := rel_some (h q) hp

theorem Each.of_some {p' : Proc} {q : Pid} (h : s.Each R s') (hp : s'.proc q = Option.some p') :
    ∃ p, s.proc q = Option.some p ∧ R p p' := rel_of_some (h q) hp

/-- What `R` does not change is the same everywhere. -/
theorem Each.elim {β : Type} {F : Proc → β} (h : s.Each R s') (hF : ∀ {p p'}, R p p' → F p' = F p) (d : β) (q : Pid) :
    (s'.proc q).elim d F = (s.proc q).elim d F := rel_elim (h q) (fun _ hR => hF hR) d

theorem Each.dispatch {h : Nat} (hr : ∀ p, R p p) (hrun : ∀ p, R p { p with state := .running }) :
    s.Each R (s.dispatch h) := by
  unfold Os.dispatch
  split
  swap
  · exact Each.refl hr s
  split
  · exact Each.refl hr s
  dsimp only
  split
  · exact Each.refl hr s
  split
  · exact Each.refl hr s
  · rename_i x _ _ _ _ _
    intro q
    exact Each.setProc (k := x.2) hr (fun p _ => hrun p) q

end Each
end Os

/-- The changes that `exit` and `sys_kill` make to processes. -/
inductive Edit (p : Proc) : Proc → Prop where
  | die (status : Int) : Edit p { p with state := .zombie status, senders := [] }
  | wake (h : p.state = .stopped) : Edit p { p with state := .running }
  | resume : Edit p { p with state := .running }
  | unblock : Edit p { p with sepc := p.sepc + 4, a0 := ESRCH, ipc := .none }
  | granted : Edit p { p with a0 := 0, ipc := .none }
  | signal (bits : BitVec 32) : Edit p { p with pendingSignals := p.pendingSignals ||| bits }
  | result (child : Pid) (status : Int) : Edit p { p with waitResult := p.waitResult ++ [(child, status)] }
  | adopt (children : List Pid) : Edit p { p with children := children }
  | orphan : Edit p { p with ppid := 1 }
  | unsend (pid : Pid) : Edit p { p with senders := p.senders.filter fun q => q ≠ pid }
  | interrupt (h : p.state = .stopped) :
      Edit p { p with ipc := .none, sepc := p.sepc + 4, a0 := EINTR, state := .running }

abbrev Edits := Relation.ReflTransGen Edit

namespace Os
variable {s : Os} {dropped : List Pid} {pid : Pid} {status : Int}

/-- What no edit is about. -/
def rest (s : Os) : (Nat → Epoll) × (Nat → Endpoint) × (Nat → Pipe) × (Nat → Socket) × List (Pid × Nat) ×
    (Nat → Pid) × Pid × List Pid :=
  (s.epolls, s.endpoints, s.pipes, s.sockets, s.sleepQueue, s.current, s.nextPid, s.procs.keys)

/-- Processes differ by edits, and nothing else but the run queue and the tables of waiters. -/
structure Edited (s s' : Os) : Prop where
  each : s.Each Edits s'
  rest : s'.rest = s.rest

variable {s' s'' : Os} {c : Prop}

theorem Edited.epolls {s : Os} (h : s.Edited s') : s'.epolls = s.epolls := congrArg (fun x => x.1) h.rest

theorem Edited.refl (s : Os) : s.Edited s := ⟨Each.refl (fun _ => .refl) s, rfl⟩

theorem Edited.trans {s : Os} (h : s.Edited s') (h' : s'.Edited s'') : s.Edited s'' :=
  ⟨Each.trans (fun a b => a.trans b) h.each h'.each, h'.rest.trans h.rest⟩

theorem Edited.of_proc {s : Os} (h : ∀ q, s'.proc q = s.proc q) (hr : s'.rest = s.rest) : s.Edited s' :=
  ⟨Each.of_proc (fun _ => .refl) h, hr⟩

theorem Edited.setProc {f : Proc → Proc} {k : Pid} (h : ∀ p, s.proc k = some p → Edit p (f p)) :
    s.Edited (s.setProc k f) :=
  ⟨Each.setProc (fun _ => .refl) fun p hp => .single (h p hp), rfl⟩

theorem Edited.foldl {ι : Type} {step : Os → ι → Os} (h : ∀ (s : Os) i, s.Edited (step s i)) :
    ∀ (is : List ι) (s : Os), s.Edited (is.foldl step s)
  | [], s => .refl s
  | i :: is, s => (h s i).trans (Edited.foldl h is (step s i))

theorem Edited.ite [Decidable c] (h : c → s.Edited s') (h' : ¬c → s.Edited s'') :
    s.Edited (if c then s' else s'') := by
  split
  · rename_i hc; exact h hc
  · rename_i hc; exact h' hc

theorem Edited.ifThen [Decidable c] (h : s.Edited s') (h' : s'.Edited s'') : s.Edited (if c then s'' else s') :=
  .ite (fun _ => h.trans h') (fun _ => h)

theorem Edited.ifElse [Decidable c] (h : s.Edited s') (h' : s'.Edited s'') : s.Edited (if c then s' else s'') :=
  .ite (fun _ => h) (fun _ => h.trans h')

theorem enqueue_edited (q : Pid) (s : Os) : s.Edited (s.enqueue q) := .of_proc (fun _ => rfl) rfl

theorem wakeStopped_edited (q : Pid) (s : Os) : s.Edited (s.wakeStopped q) := by
  unfold wakeStopped
  split
  · exact .refl s
  · rename_i p hp
    refine .ite (fun hs => ?_) (fun _ => .refl s)
    refine Edited.trans (Edited.setProc fun p' hp' => ?_) (.of_proc (fun _ => rfl) rfl)
    rw [hp] at hp'
    cases hp'
    exact .wake hs

theorem resume_edited (q : Pid) (s : Os) : s.Edited (s.resume q) := by
  unfold resume
  split
  · exact .refl s
  · exact Edited.trans (Edited.setProc fun p _ => .resume) (.of_proc (fun _ => rfl) rfl)

theorem wakeFutex_edited (addr : Nat) (s : Os) : s.Edited (s.wakeFutex addr) := by
  refine Edited.trans ?_ (Edited.foldl (fun s q => resume_edited q s) _ _)
  exact .of_proc (fun _ => rfl) rfl

theorem granted_edited (q : Pid) (s : Os) : s.Edited (s.granted q) :=
  (Edited.setProc fun _ _ => .granted).trans (resume_edited q _)

theorem wakeLockWaiters_edited (file : Nat) (s : Os) : s.Edited (s.wakeLockWaiters file) := by
  refine Edited.trans ?_ (Edited.foldl (fun s q => granted_edited q s) _ _)
  exact .of_proc (fun _ => rfl) rfl

theorem releaseAllLocks_edited (q : Pid) (s : Os) : s.Edited (s.releaseAllLocks q) := by
  refine Edited.trans ?_ (Edited.foldl (fun s file => wakeLockWaiters_edited file s) _ _)
  exact .of_proc (fun _ => rfl) rfl

theorem unblock_edited (q : Pid) (s : Os) : s.Edited (s.unblock q) :=
  (Edited.setProc fun _ _ => .unblock).trans (wakeStopped_edited q _)

theorem tryWakeParent_edited (parent child : Pid) (status : Int) (s : Os) :
    s.Edited (s.tryWakeParent parent child status) := by
  have h1 : s.Edited (s.setProc parent fun p => { p with pendingSignals := p.pendingSignals ||| 1#32 <<< 17 }) :=
    Edited.setProc fun _ _ => .signal _
  exact .ifThen h1 ((Edited.setProc fun _ _ => .result child status).trans (wakeStopped_edited parent _))

theorem reparentOne_edited (child : Pid) (s : Os) : s.Edited (s.reparentOne child) := by
  unfold reparentOne
  split
  · exact .refl s
  · have h1 : s.Edited (s.setProc child fun p => { p with ppid := 1 }) := Edited.setProc fun _ _ => .orphan
    split
    · exact .ifThen h1 (tryWakeParent_edited _ _ _ _)
    · exact h1

theorem reparent_edited (children : List Pid) (s : Os) : s.Edited (s.reparent children) := by
  have h1 : s.Edited (s.adopt children) := Edited.setProc fun _ _ => .adopt _
  exact h1.trans (Edited.foldl (fun s c => reparentOne_edited c s) _ _)

theorem hangup_edited (q : Pid) (s : Os) : s.Edited (s.hangup q) :=
  (Edited.setProc fun _ _ => .signal _).trans (wakeStopped_edited q _)

theorem wakeGroup_edited (pid pgid : Pid) (s : Os) : s.Edited (s.wakeGroup pid pgid) :=
  .ite (fun _ => .refl s) (fun _ => Edited.foldl (fun s q => hangup_edited q s) _ s)

theorem wakeOrphans_edited (pid : Pid) (children : List Pid) (s : Os) : s.Edited (s.wakeOrphans pid children) :=
  Edited.foldl (fun s pgid => wakeGroup_edited pid pgid s) _ s

theorem markDead_edited (dropped : List Pid) (pid : Pid) (status : Int) (s : Os) :
    s.Edited (s.markDead dropped pid status) :=
  (Edited.setProc fun _ _ => .die status).trans (Edited.foldl (fun s q => enqueue_edited q s) _ _)

theorem exit_edited (dropped : List Pid) (pid : Pid) (status : Int) (s : Os) :
    s.Edited (s.exit dropped pid status) := by
  unfold exit
  split
  · exact .refl s
  · rename_i p hp
    refine .ifElse ?_ (wakeOrphans_edited _ _ _)
    refine .ifThen ?_ (tryWakeParent_edited _ _ _ _)
    refine .ifElse ?_ (reparent_edited _ _)
    refine .trans ?_ (releaseAllLocks_edited _ _)
    refine .trans ?_ (Edited.foldl (fun s q => unblock_edited q s) _ _)
    refine .trans ?_ (Edited.foldl (fun s q => unblock_edited q s) _ _)
    exact .ifThen (markDead_edited dropped pid status s) (wakeFutex_edited _ _)

theorem exitAll_edited (dropped : Pid → List Pid) (status : Int) (pids : List Pid) (s : Os) :
    s.Edited (s.exitAll dropped status pids) :=
  Edited.foldl (fun s q => exit_edited (dropped q) q status s) pids s

theorem wakeWithEintr_edited (q : Pid) (s : Os) : s.Edited (s.wakeWithEintr q) := by
  unfold wakeWithEintr
  split
  · exact .refl s
  · rename_i p hp
    refine .ite (fun hs => ?_) (fun _ => .refl s)
    dsimp only
    split
    · refine ((Edited.setProc fun _ _ => .unsend q).trans (Edited.setProc fun p' hp' => .interrupt ?_)).trans
        (.of_proc (fun _ => rfl) rfl)
      rw [proc_setProc, hp] at hp'
      split at hp'
      · cases hp'; exact hs
      · cases hp'; exact hs
    · refine (Edited.setProc fun p' hp' => .interrupt ?_).trans (.of_proc (fun _ => rfl) rfl)
      rw [hp] at hp'
      cases hp'
      exact hs

theorem post_edited (sig : Nat) (q : Pid) (s : Os) : s.Edited (s.post sig q) := by
  have h1 : s.Edited (s.setProc q fun p => { p with pendingSignals := p.pendingSignals ||| 1#32 <<< sig }) :=
    Edited.setProc fun _ _ => .signal _
  exact .ifThen h1 (wakeWithEintr_edited q _)

end Os
end OpenV.Sched
