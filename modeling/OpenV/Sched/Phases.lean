import OpenV.Sched.Edits

/- The phases of `exit`. After the dying process has been dealt with, what is left
   (children to init, the parent, orphaned groups) is mild: it changes signals,
   results and parents, and wakes processes that are stopped. `Milds` says so once
   for every property that does not look at these. -/
namespace OpenV.Sched

/-- Only signals, results of children and family ties differ. -/
def Soft (p p' : Proc) : Prop :=
  p' = { p with pendingSignals := p'.pendingSignals, waitResult := p'.waitResult, children := p'.children,
                ppid := p'.ppid }

inductive Mild (s : Os) : Os → Prop where
  | soft {q : Pid} {f : Proc → Proc} (h : ∀ p, Soft p (f p)) : Mild s (s.setProc q f)
  | wake {q : Pid} {p : Proc} (hp : s.proc q = some p) (hs : p.state = .stopped) :
      Mild s ((s.setProc q fun p => { p with state := .running }).enqueueWithPrio q p.priority)

abbrev Milds := Relation.ReflTransGen Mild

namespace Milds
variable {s s' s'' : Os}

theorem soft {q : Pid} {f : Proc → Proc} (h : ∀ p, Soft p (f p)) : Milds s (s.setProc q f) := .single (.soft h)

theorem foldl {ι : Type} {step : Os → ι → Os} (h : ∀ (s : Os) i, Milds s (step s i)) :
    ∀ (is : List ι) (s : Os), Milds s (is.foldl step s)
  | [], _ => .refl
  | i :: is, s => (h s i).trans (foldl h is (step s i))

theorem ite {c : Prop} [Decidable c] (h : c → Milds s s') (h' : ¬c → Milds s s'') : Milds s (if c then s' else s'') := by
  split
  · rename_i hc; exact h hc
  · rename_i hc; exact h' hc

/-- A relation that is kept by soft changes and by waking holds between the ends. -/
theorem lift {R : Os → Os → Prop} (hr : ∀ s, R s s) (ht : ∀ {a b c}, R a b → R b c → R a c)
    (hsoft : ∀ {s : Os} {q f}, (∀ p, Soft p (f p)) → R s (s.setProc q f))
    (hwake : ∀ {s : Os} {q p}, s.proc q = some p → p.state = .stopped →
      R s ((s.setProc q fun p => { p with state := .running }).enqueueWithPrio q p.priority))
    (h : Milds s s') : R s s' := by
  induction h with
  | refl => exact hr s
  | tail _ hstep ih =>
    cases hstep with
    | soft h => exact ht ih (hsoft h)
    | wake hp hs => exact ht ih (hwake hp hs)

/-- The same for a relation of processes. -/
theorem each {R : Proc → Proc → Prop} (hr : ∀ p, R p p) (ht : ∀ {a b c}, R a b → R b c → R a c)
    (hsoft : ∀ {p p'}, Soft p p' → R p p') (hwake : ∀ {p : Proc}, p.state = .stopped → R p { p with state := .running })
    (h : Milds s s') : s.Each R s' := by
  refine lift (Os.Each.refl hr) (Os.Each.trans ht)
    (fun h => Os.Each.setProc hr fun p _ => hsoft (h p)) (fun {s q p} hp hs q' => ?_) h
  have hw : s.Each R (s.setProc q fun p => { p with state := .running }) := by
    refine Os.Each.setProc hr fun p' hp' => ?_
    rw [hp] at hp'
    cases hp'
    exact hwake hs
  exact hw q'

/-- Nobody leaves the run queue. -/
theorem queued (h : Milds s s') : s.queued <+: s'.queued := by
  refine lift (R := fun s s' => s.queued <+: s'.queued) (fun s => List.prefix_refl _) (fun a b => a.trans b)
    (fun _ => List.prefix_refl _) (fun _ _ => ?_) h
  rw [Os.queued_enqueueWithPrio]
  exact List.prefix_append _ _

end Milds

namespace Os
variable {s : Os}

theorem wakeStopped_milds (q : Pid) (s : Os) : Milds s (s.wakeStopped q) := by
  unfold wakeStopped
  split
  · exact .refl
  · rename_i p hp
    exact .ite (fun hs => .single (.wake hp hs)) (fun _ => .refl)

theorem tryWakeParent_milds (parent child : Pid) (status : Int) (s : Os) :
    Milds s (s.tryWakeParent parent child status) := by
  have h1 : Milds s (s.setProc parent fun p => { p with pendingSignals := p.pendingSignals ||| 1#32 <<< 17 }) :=
    .soft fun _ => rfl
  have h2 : ∀ s : Os, Milds s (s.setProc parent fun p => { p with waitResult := p.waitResult ++ [(child, status)] }) :=
    fun _ => .soft fun _ => rfl
  exact .ite (fun _ => (h1.trans (h2 _)).trans (wakeStopped_milds parent _)) (fun _ => h1)

theorem reparentOne_milds (child : Pid) (s : Os) : Milds s (s.reparentOne child) := by
  unfold reparentOne
  split
  · exact .refl
  · have h1 : Milds s (s.setProc child fun p => { p with ppid := 1 }) := .soft fun _ => rfl
    split
    · exact .ite (fun _ => h1.trans (tryWakeParent_milds _ _ _ _)) (fun _ => h1)
    · exact h1

theorem reparent_milds (children : List Pid) (s : Os) : Milds s (s.reparent children) := by
  have h1 : Milds s (s.adopt children) := .soft fun _ => rfl
  exact h1.trans (Milds.foldl (fun s c => reparentOne_milds c s) _ _)

theorem hangup_milds (q : Pid) (s : Os) : Milds s (s.hangup q) := by
  have h1 : Milds s (s.setProc q fun p =>
      { p with pendingSignals := p.pendingSignals ||| (1#32 <<< 1 ||| 1#32 <<< 18) }) := .soft fun _ => rfl
  exact h1.trans (wakeStopped_milds q _)

theorem wakeGroup_milds (pid pgid : Pid) (s : Os) : Milds s (s.wakeGroup pid pgid) :=
  .ite (fun _ => .refl) (fun _ => Milds.foldl (fun s q => hangup_milds q s) _ s)

theorem wakeOrphans_milds (pid : Pid) (children : List Pid) (s : Os) : Milds s (s.wakeOrphans pid children) :=
  Milds.foldl (fun s pgid => wakeGroup_milds pid pgid s) _ s

/-! ## What is not touched -/

theorem foldl_keep {β ι : Type} (g : Os → β) (step : Os → ι → Os) (h : ∀ s i, g (step s i) = g s) :
    ∀ (l : List ι) (s : Os), g (l.foldl step s) = g s
  | [], _ => rfl
  | i :: l, s => (foldl_keep g step h l (step s i)).trans (h s i)

/-- A part of the state that has nothing to do with processes and the run queue. -/
structure Outside {β : Type} (g : Os → β) : Prop where
  setProc : ∀ (s : Os) (q : Pid) (f : Proc → Proc), g (s.setProc q f) = g s
  enqueue : ∀ (s : Os) (q : Pid) (prio : Int), g (s.enqueueWithPrio q prio) = g s

namespace Outside
variable {β : Type} {g : Os → β}

section
variable (hg : Outside g)
include hg

theorem milds {s' : Os} (h : Milds s s') : g s' = g s := by
  refine Milds.lift (R := fun s s' => g s' = g s) (fun _ => rfl) (fun a b => b.trans a) (fun _ => hg.setProc _ _ _)
    (fun _ _ => ?_) h
  rw [hg.enqueue, hg.setProc]

theorem resume (s : Os) (q : Pid) : g (s.resume q) = g s := by
  unfold Os.resume
  split
  · rfl
  · rw [hg.enqueue, hg.setProc]

theorem resumeAll (l : List Pid) (s : Os) : g (s.resumeAll l) = g s :=
  foldl_keep g (fun s q => s.resume q) hg.resume l s

theorem granted (s : Os) (q : Pid) : g (s.granted q) = g s := by
  unfold Os.granted
  rw [hg.resume, hg.setProc]

theorem unblock (s : Os) (q : Pid) : g (s.unblock q) = g s := by
  unfold Os.unblock
  rw [hg.milds (wakeStopped_milds q _), hg.setProc]

theorem markDead (dropped : List Pid) (pid : Pid) (status : Int) (s : Os) :
    g (s.markDead dropped pid status) = g s := by
  unfold Os.markDead
  rw [foldl_keep g (fun s q => s.enqueue q) (fun s q => hg.enqueue s q _), hg.setProc]

theorem wakeWithEintr (pid : Pid) (s : Os) : g (s.wakeWithEintr pid) = g s := by
  unfold Os.wakeWithEintr
  split
  · rfl
  · split
    · rw [hg.enqueue, hg.setProc]
      split
      · exact hg.setProc _ _ _
      · rfl
    · rfl

theorem post (sig : Nat) (pid : Pid) (s : Os) : g (s.post sig pid) = g s := by
  unfold Os.post
  dsimp only
  split
  · rw [hg.wakeWithEintr, hg.setProc]
  · exact hg.setProc _ _ _

end

end Outside

theorem outside_futexes : Outside Os.futexes := ⟨fun _ _ _ => rfl, fun _ _ _ => rfl⟩

/-! ## The phases of `exit` -/

/-- The last phases of `exit`: children, parent and orphans. -/
def exitTail (pid : Pid) (status : Int) (p : Proc) (s : Os) : Os :=
  let s := if p.children = [] then s else s.reparent p.children
  let s := if p.ppid ≠ 0 ∧ (s.proc p.ppid).isSome then s.tryWakeParent p.ppid pid status else s
  if p.children = [] then s else s.wakeOrphans pid p.children

/-- The first ones: the process is dead, and who waits for its thread word or for a message is told. -/
def exitHead (dropped : List Pid) (pid : Pid) (status : Int) (p : Proc) (s : Os) : Os :=
  let s := s.markDead dropped pid status
  let s := if clears p.clearTid then s.wakeFutex p.clearTid else s
  let s := p.senders.foldl (fun s q => s.unblock q) s
  (s.stuckWaiters pid).foldl (fun s q => s.unblock q) s

theorem exitFound_eq (dropped : List Pid) (pid : Pid) (status : Int) (p : Proc) (s : Os) :
    s.exitFound dropped pid status p =
      ((s.exitHead dropped pid status p).releaseAllLocks pid).exitTail pid status p := rfl

theorem exitTail_milds (pid : Pid) (status : Int) (p : Proc) (s : Os) : Milds s (s.exitTail pid status p) := by
  have h1 : Milds s (if p.children = [] then s else s.reparent p.children) :=
    .ite (fun _ => .refl) (fun _ => reparent_milds _ _)
  have h2 : ∀ s : Os, Milds s
      (if p.ppid ≠ 0 ∧ (s.proc p.ppid).isSome then s.tryWakeParent p.ppid pid status else s) :=
    fun s => .ite (fun _ => tryWakeParent_milds _ _ _ s) (fun _ => .refl)
  exact .ite (fun _ => h1.trans (h2 _)) (fun _ => (h1.trans (h2 _)).trans (wakeOrphans_milds _ _ _))

end Os
end OpenV.Sched
