import OpenV.Kernel.FaultSpec
import OpenV.Lib.Run
import OpenV.Posix.SpawnSpec

/- The kernel as a transition system. A run is any sequence of syscalls, page
   faults and process switches; the kernel invariant holds along every run whose
   steps the policy allows. -/
namespace OpenV

open Cmd

/-- What can happen next. The fuel of `unmap` bounds the rounds of `unmap_range`; the outcomes of
the kernel heap and of `aslr_rand` are part of the choice. A page is evicted when some driver
allocates one. -/
inductive Op where
  | schedule (pid : Nat)
  | setState (pid : Nat) (stopped : Bool)
  | spawn (c : Chance)
  | fault (cause : FaultCause) (va : Nat)
  | load (data : Bytes)
  | vmoCreate (size : Nat)
  | vmoMap (handle vaHint mapSize prot : Nat)
  | unmap (fuel va size : Nat)
  | close (handle : Nat)
  | mmap (hint len flags : Nat) (fd : Int)
  | physMap (va pa len : Nat)
  | fork (c : Chance)
  | exec (data : Bytes)
  | exit (pid : Nat) (status : Int)
  | reap (pid : Nat)
  | evict

/-- Run `f` for the current process, if there is one. -/
def onCurrent (f : Process → Cmd Kern Unit) : Cmd Kern Unit := do
  let k ← Cmd.get
  match k.currentProc with
  | some q => f q
  | none => pure ()

/-- Forget the value a command returns. -/
def Cmd.ignore {σ α : Type} (c : Cmd σ α) : Cmd σ Unit := do
  let _ ← c
  pure ()

/-- A process is stopped, or goes on. -/
def Kern.setState (k : Kern) (pid : Nat) (stopped : Bool) : Kern :=
  match k.procs pid with
  | some q => k.setProc pid (some { q with state := if stopped then .stopped else .running })
  | none => k

def Op.run : Op → Cmd Kern Unit
  | .schedule pid => Cmd.modify fun k => { k with currentPid := pid }
  | .setState pid stopped => Cmd.modify fun k => k.setState pid stopped
  | .spawn c => (do let k ← Cmd.get; processNew k.currentPid c : Cmd Kern (Nat × Process)).ignore
  | .fault cause va => onCurrent fun q => handlePageFault q.root cause va
  | .load data => onCurrent fun q => (Kern.onMm (loadElf data q.root)).ignore
  | .vmoCreate size => (sysVmoCreate size).ignore
  | .vmoMap handle vaHint mapSize prot => (sysVmoMap handle vaHint mapSize prot).ignore
  | .unmap fuel va size => (sysUnmap fuel va size).ignore
  | .close handle => (sysHandleClose handle).ignore
  | .mmap hint len flags fd => (sysMmap hint len flags fd).ignore
  | .physMap va pa len => (sysPhysMap va pa len).ignore
  | .fork c => onCurrent fun _ => (sysFork c).ignore
  | .exec data => (sysExec data).ignore
  | .exit pid status => OpenV.exit pid status
  | .reap pid => reapZombie pid
  | .evict => tryEvictPage.ignore

/-- The steps under which a policy's invariant is kept. -/
def Op.Allowed (p : Policy) (k : Kern) : Op → Prop
  | .schedule _ | .setState .. | .spawn _ | .vmoCreate _ | .mmap .. | .fork _ | .evict => True
  | .fault _ va => Reach p va
  | .load data => LoadsWithin p data
  | .vmoMap _ vaHint mapSize prot => p.leafOk (protFlags prot) ∧ MapsWithin p k vaHint mapSize
  | .unmap _ va size => UnmapsWithin p va size
  | .close handle => Droppable (k.closed handle)
  | .physMap va pa len => Unmanaged k pa len ∧
      ∀ j < len / pageSize, va + j * pageSize ≤ usizeMax → Reach p (va + j * pageSize)
  | .exec data => LoadsWithin p data ∧ Droppable k.execed ∧ ∀ fl, p.leafOk fl → isLeaf fl = true
  | .exit pid status => Droppable (k.exited pid status)
  | .reap pid => Droppable (k.setProc pid none) ∧ ∀ fl, p.leafOk fl → isLeaf fl = true

/-- A policy that can be kept while processes share pages. -/
structure Policy.Serves (p : Policy) : Prop where
  faults : p.Faults
  shared : ¬p.priv
  plain : p.leafOk (pteV ||| (pteR ||| pteW ||| pteU))

section System
variable {k k' : Kern} {g : Ghost} {p : Policy} {E X : Kern → Prop}

theorem wp_onCurrent {f : Process → Cmd Kern Unit} {Q : Unit → Kern → Prop} (hnone : Q () k)
    (hsome : ∀ q, k.currentProc = some q → (f q).wp Q E X k) : (onCurrent f).wp Q E X k := by
  simp only [onCurrent, wp_bind, wp_get]
  cases hq : k.currentProc with
  | none => simpa only [wp_pure] using hnone
  | some q => exact hsome q hq

theorem wp_ignore {α : Type} {c : Cmd Kern α} {Q : Unit → Kern → Prop} (h : c.wp (fun _ => Q ()) E X k) :
    c.ignore.wp Q E X k := by
  simpa only [Cmd.ignore, wp_bind, wp_pure] using h

theorem KInv.setState (h : KInv p [] k g) (pid : Nat) (stopped : Bool) : KInv p [] (k.setState pid stopped) g := by
  unfold Kern.setState
  cases hq : k.procs pid with
  | none => exact h
  | some q => exact h.setProc hq rfl

/-- One step. -/
theorem Op.run_sound (hp : p.Serves) (h : KInv p [] k g) (hc : Counted k) : ∀ (op : Op), op.Allowed p k →
      op.run.endsIn (fun k' => Sound p k') k := by
  have hsame : Sound p k := ⟨g, h⟩
  have hs := hc.small h
  have htrue : ∀ k : Kern, (fun _ => True) k := fun _ => trivial
  intro op ha
  cases op with
  | schedule pid =>
    simp only [Op.run, wp_modify]
    exact ⟨g, h.mm, h.ext, h.root, h.inj, h.pid, h.vmo, h.swap, h.satp⟩
  | setState pid stopped =>
    simp only [Op.run, wp_modify]
    exact ⟨g, h.setState pid stopped⟩
  | spawn c =>
    refine wp_ignore ?_
    simp only [wp_bind, wp_get]
    refine wp_imp (processNew_wp h k.currentPid c) fun _ k' hd => ?_
    obtain ⟨g', hb⟩ := hd
    exact ⟨g', hb.inv⟩
  | fault cause va =>
    have hstep : ∀ k', (∃ g', KStep p [] k g k' g') → Sound p k' := fun k' hd => by
      obtain ⟨g', hd⟩ := hd
      exact ⟨g', hd.inv⟩
    exact wp_onCurrent hsame fun q hq =>
      endsIn_mono (handlePageFault_keeps hp.faults h hs (h.root hq) cause ha) hstep
  | load data =>
    have hstep : ∀ s', (∃ g', MmStep p k.mm g s' g') → Sound p { k with mm := s' } := fun s' hd => by
      obtain ⟨g', hd⟩ := hd
      exact ⟨g', h.step hd⟩
    refine wp_onCurrent hsame fun q hq => wp_ignore ?_
    simp only [Kern.onMm, wp_zoom]
    exact endsIn_mono (loadElf_wp h.mm (h.root hq) ha fun _ => trivial) hstep
  | vmoCreate size => exact wp_ignore (sysVmoCreate_keeps h hs size htrue)
  | vmoMap handle vaHint mapSize prot =>
    exact wp_ignore (sysVmoMap_keeps h hc hp.shared handle vaHint mapSize prot ha.1 ha.2 htrue)
  | unmap fuel va size => exact wp_ignore (sysUnmap_keeps h hs fuel va size ha htrue)
  | close handle => exact wp_ignore (sysHandleClose_keeps h hs handle ha)
  | mmap hint len flags fd => exact wp_ignore (sysMmap_keeps h hint len flags fd htrue)
  | physMap va pa len => exact wp_ignore (sysPhysMap_keeps h va pa len hp.plain ha.1 ha.2 htrue)
  | fork c =>
    exact wp_onCurrent hsame fun q hq => wp_ignore (sysFork_keeps hp.faults.closed h hq c htrue)
  | exec data => exact wp_ignore (sysExec_keeps ha.2.2 hp.plain h hs data ha.1 ha.2.1 htrue)
  | exit pid status => exact exit_keeps h hs pid status ha
  | reap pid => exact reapZombie_keeps ha.2 h hs pid ha.1
  | evict =>
    refine wp_ignore (wp_imp (tryEvictPage_keeps h hs) (fun _ k' hd => ?_))
    obtain ⟨-, g', hd⟩ := hd
    exact ⟨g', hd.inv⟩

/-- Every run whose steps the policy allows, while no count saturates. -/
theorem run_sound (hp : p.Serves) {ops : List Op} (h : Sound p k) (hc : Counted k)
    (hrun : runAll Op.run ops k = some k')
    (hall : Along Op.run (fun op k k' => op.Allowed p k ∧ Counted k') ops k) : Sound p k' ∧ Counted k' := by
  refine runAll_inv (fun k => Sound p k ∧ Counted k) (fun op k hI => ?_) ⟨h, hc⟩ hrun hall
  obtain ⟨⟨g, h⟩, hc⟩ := hI
  by_cases ha : op.Allowed p k
  · exact endsIn_mono (Op.run_sound hp h hc op ha) fun k' hk hC => ⟨hk, hC.2⟩
  · exact endsIn_mono (wp_true _ _) fun _ _ hC => absurd hC.1 ha

end System
end OpenV
