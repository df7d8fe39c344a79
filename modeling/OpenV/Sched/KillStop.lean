import OpenV.Sched.Edits
import OpenV.Sched.Signals

/- SIGKILL and SIGSTOP: whether they can be blocked, whether they run a handler,
   and whether they are acted on when the process next goes to user mode. Every
   way to write a mask is a step, so the condition under which the guarantee holds
   is exact, step by step. -/
namespace OpenV.Sched

open Os

/-- Neither SIGKILL nor SIGSTOP is in the set. -/
def clean (w : BitVec 32) : Prop := w.getLsbD sigKill = false ∧ w.getLsbD sigStop = false

instance (w : BitVec 32) : Decidable (clean w) := inferInstanceAs (Decidable (_ ∧ _))

theorem clean_or {a b : BitVec 32} : clean (a ||| b) ↔ clean a ∧ clean b := by
  simp only [clean, BitVec.getLsbD_or, Bool.or_eq_false_iff]
  exact and_and_and_comm

theorem clean_bit {sig : Nat} (h1 : sig ≠ sigKill) (h2 : sig ≠ sigStop) : clean (1#32 <<< sig) := by
  simp only [sigKill, sigStop] at h1 h2
  simp only [clean, sigKill, sigStop]
  constructor <;> simp <;> omega

theorem clean.ne {w : BitVec 32} {sig : Nat} (hc : clean w) (hsig : w.getLsbD sig = true) :
    sig ≠ sigKill ∧ sig ≠ sigStop := by
  refine ⟨?_, ?_⟩ <;> rintro rfl
  · exact Bool.noConfusion (hc.1.symm.trans hsig)
  · exact Bool.noConfusion (hc.2.symm.trans hsig)

theorem not_clean_bit : ¬clean (1#32 <<< sigKill) ∧ ¬clean (1#32 <<< sigStop) := by decide

theorem not_clean_allOnes : ¬clean (BitVec.allOnes 32) := by decide

/-! ## The steps -/

inductive SigCall where
  | sigprocmask (how setPtr oldPtr : Nat) (set : BitVec 32)
  | sigaction (sig actPtr oldPtr : Nat) (act : SigAction)
  | sigreturn (sp : Nat) (frame : SignalFrame)
  | epollPwait (a : Os.EpollArgs)
  | kill (target : Int) (sig : Nat) (dropped : Pid → List Pid)
  | tgkill (tgid tid : Pid) (sig : Nat)

namespace SigCall

def call : SigCall → Call
  | epollPwait a => .epollPwait a.ep
  | _ => .other

def run (h : Nat) : SigCall → Os → Os
  | sigprocmask how setPtr oldPtr set => sysSigprocmask h how setPtr oldPtr set
  | sigaction sig actPtr oldPtr act => sysSigaction h sig actPtr oldPtr act
  | sigreturn sp frame => sysSigreturn h sp frame
  | epollPwait a => sysEpollPwait h a
  | kill target sig dropped => sysKill dropped h target sig
  | tgkill tgid tid sig => sysTgkill h tgid tid sig

/-- `sys_sigprocmask` gets as far as to store a mask. -/
def storesMask (how setPtr oldPtr : Nat) : Bool :=
  (oldPtr == 0 || isUserPointerValid 4 oldPtr 1) && setPtr != 0 && isUserPointerValid 4 setPtr 1 && decide (how < 3)

/-- `sys_epoll_pwait` goes to sleep with the mask it was given. -/
def sleepsMasked (a : Os.EpollArgs) (pid : Pid) (s : Os) : Bool :=
  !a.timedOut pid s && a.bufferOk && a.masks s && isUserPointerValid 1 a.sigmaskPtr 4 && !a.atOnce

/-- What a call needs in order not to block the two. -/
def Ok (h : Nat) (s : Os) : SigCall → Prop
  | sigprocmask how setPtr oldPtr _ => storesMask how setPtr oldPtr = false
  | sigreturn sp frame => isUserPointerValid signalFrameSize sp 1 = true → clean frame.savedBlocked
  | epollPwait a => sleepsMasked a (s.current h) s = true → clean a.sigmask
  | _ => True

end SigCall

inductive SigOp where
  | call (h pc : Nat) (c : SigCall)
  /-- the end of a trap from user mode -/
  | trapReturn (h : Nat) (frameOk : Bool) (dropped : List Pid)
  | dispatch (h : Nat)

namespace SigOp

def step : SigOp → Os → Os
  | call h pc c => syscall h pc c.call (c.run h)
  | trapReturn h frameOk dropped => Os.trapReturn dropped h frameOk
  | dispatch h => Os.dispatch h

def run (op : SigOp) : Cmd Os Unit := Cmd.modify op.step

end SigOp

/-- No process blocks SIGKILL or SIGSTOP. -/
def Unblocked (s : Os) : Prop := ∀ q p, s.proc q = some p → clean p.blockedSignals

/-- A pending SIGKILL or SIGSTOP is acted on, and neither runs a handler. -/
def Verdict.Heeds (v : Verdict) (p : Proc) : Prop :=
  (∀ sig addr, v = .handler sig addr → sig ≠ sigKill ∧ sig ≠ sigStop) ∧ (v.toUser = true → clean p.pendingSignals)

/-- The process that `schedule` puts on the hart has neither signal pending. -/
def startsClean (h : Nat) (s s' : Os) : Prop :=
  s.current h = 0 → s'.current h ≠ 0 → ∀ p, s'.proc (s'.current h) = some p → clean p.pendingSignals

/-- What is wanted of a step. -/
def SigOp.Heeds (op : SigOp) (s s' : Os) : Prop :=
  Unblocked s' ∧
    match op with
    | call _ _ _ => True
    | trapReturn h frameOk _ => ∀ p, s.proc (s.current h) = some p → (p.signalCheck frameOk).1.Heeds p
    | dispatch h => startsClean h s s'

/-- What a step needs: a mask that is stored has neither signal, and none of the two is pending when the process goes
on to user mode, be it after a signal with a lower number or by way of `schedule`. -/
def SigOp.Ok (op : SigOp) (s : Os) : Prop :=
  match op with
  | call h pc c => (s.caller h pc c.call).isSome = true → c.Ok h s
  | trapReturn h frameOk _ => ∀ p, s.proc (s.current h) = some p →
      ((p.signalCheck frameOk).1.toUser = true → clean p.pendingSignals) ∧
        ∀ sig addr, (p.signalCheck frameOk).1 = .handler sig addr → clean (p.signalMasks sig)
  | dispatch h => startsClean h s (s.dispatch h)

structure SigInv (s : Os) : Prop where
  blocked : Unblocked s
  saved : ∀ e, (s.epolls e).savedSigmask = BitVec.allOnes 32 ∨ clean (s.epolls e).savedSigmask

section Masks
variable {s s' : Os} {k : Pid} {f : Proc → Proc} {h : Nat} {C : Prop}
variable {p p' : Proc}

theorem Edit.blockedSignals (h : Edit p p') : p'.blockedSignals = p.blockedSignals := by
  cases h <;> rfl

theorem Edits.blockedSignals (h : Edits p p') : p'.blockedSignals = p.blockedSignals := by
  induction h with
  | refl => rfl
  | tail _ he ih => rw [he.blockedSignals, ih]

theorem SigInv.edited (hs : SigInv s) (he : s.Edited s') : SigInv s' where
  blocked q p hp := by
    obtain ⟨p0, hp0, hed⟩ := he.each.of_some hp
    rw [hed.blockedSignals]
    exact hs.blocked q p0 hp0
  saved e := by
    rw [he.epolls]
    exact hs.saved e

theorem SigInv.setProc (hs : SigInv s) (hf : ∀ p, s.proc k = some p → clean (f p).blockedSignals) :
    SigInv (s.setProc k f) where
  blocked := forall_setProc hf fun q p _ => hs.blocked q p
  saved := hs.saved

/-- A change that is not about the mask. -/
theorem SigInv.setProc_same (hs : SigInv s) (hf : ∀ p, (f p).blockedSignals = p.blockedSignals) :
    SigInv (s.setProc k f) :=
  hs.setProc fun p hp => by
    rw [hf p]
    exact hs.blocked k p hp

theorem SigInv.setA0 (hs : SigInv s) (v : Nat) : SigInv (s.setA0 k v) := hs.setProc_same fun _ => rfl

theorem saved_setEpoll {ep : Nat} {x : Epoll}
    (hs : ∀ e, (s.epolls e).savedSigmask = BitVec.allOnes 32 ∨ clean (s.epolls e).savedSigmask)
    (hx : x.savedSigmask = BitVec.allOnes 32 ∨ clean x.savedSigmask) (e : Nat) :
    ((s.setEpoll ep x).epolls e).savedSigmask = BitVec.allOnes 32 ∨ clean ((s.setEpoll ep x).epolls e).savedSigmask :=
  (Function.forall_update_iff s.epolls (p := fun _ x => x.savedSigmask = BitVec.allOnes 32 ∨ clean x.savedSigmask)).mpr
    ⟨hx, fun e _ => hs e⟩ e

theorem SigInv.of_proc (hs : SigInv s) (hp : ∀ q, s'.proc q = s.proc q) (he : s'.epolls = s.epolls) : SigInv s' where
  blocked q p hq := hs.blocked q p (hp q ▸ hq)
  saved e := he ▸ hs.saved e

/-- A step keeps the masks clean exactly under `C`. -/
def Exact (C : Prop) (s' : Os) : Prop := (C ↔ Unblocked s') ∧ (Unblocked s' → SigInv s')

theorem Exact.of_inv (hs : SigInv s') (hC : C) : Exact C s' := ⟨iff_of_true hC hs.blocked, fun _ => hs⟩

theorem Exact.of_not (hs : ¬Unblocked s') (hC : ¬C) : Exact C s' := ⟨iff_of_false hC hs, fun hb => absurd hb hs⟩

theorem not_unblocked (hp : s.proc k = some p) (hc : ¬clean p.blockedSignals) : ¬Unblocked s :=
  fun hu => hc (hu k p hp)

/-- The mask of one process is replaced. -/
theorem Exact.setMask (hs : SigInv s) (hp : s.proc k = some p) :
    Exact (clean (f p).blockedSignals) (s.setProc k f) := by
  by_cases hc : clean (f p).blockedSignals
  · refine .of_inv (hs.setProc fun p' hp' => ?_) hc
    rw [hp] at hp'
    cases hp'
    exact hc
  · refine .of_not (not_unblocked (k := k) ?_ hc) hc
    rw [proc_setProc_self, hp]
    rfl

theorem Exact.congr {C' : Prop} (h : Exact C s') (e : C' ↔ C) : Exact C' s' := ⟨e.trans h.1, h.2⟩

end Masks

/-! ## The calls -/

section Calls
variable {s : Os} {h : Nat} {p : Proc}

theorem updatedMask_isSome (how : Nat) (old set : BitVec 32) :
    (updatedMask how old set).isSome = decide (how < 3) := by
  unfold updatedMask
  split
  · rfl
  · rfl
  · rfl
  · rename_i h0 h1 h2
    symm
    simp only [Option.isSome_none, decide_eq_false_iff_not]
    have n0 : how ≠ 0 := h0
    have n1 : how ≠ 1 := h1
    have n2 : how ≠ 2 := h2
    omega

theorem sigprocmask_exact (hs : SigInv s) (hp : s.proc (s.current h) = some p) (how setPtr oldPtr : Nat)
    (set : BitVec 32) :
    Exact (SigCall.storesMask how setPtr oldPtr = false) (s.sysSigprocmask h how setPtr oldPtr set) := by
  unfold Os.sysSigprocmask SigCall.storesMask
  split
  · rename_i ho
    exact .of_inv (hs.setA0 _) (by simp [ho.1, ho.2])
  rename_i ho
  split
  · rename_i h0
    exact .of_inv (hs.setA0 _) (by simp [h0])
  rename_i h0
  split
  · rename_i hv
    exact .of_inv (hs.setA0 _) (by simp [hv])
  rename_i hv
  refine (Exact.setMask hs hp).congr ?_
  have hsome := updatedMask_isSome how p.blockedSignals set
  have hold : (oldPtr == 0 || isUserPointerValid 4 oldPtr 1) = true := by
    rw [Bool.or_eq_true, beq_iff_eq]
    by_cases h1 : oldPtr = 0
    · exact .inl h1
    · exact .inr (Bool.ne_false_iff.mp fun e => ho ⟨h1, e⟩)
  rw [hold, Bool.ne_false_iff.mp hv, ← hsome]
  cases hm : updatedMask how p.blockedSignals set with
  | none =>
    refine iff_of_true ?_ (hs.blocked _ p hp)
    simp
  | some mask =>
    refine iff_of_false ?_ ?_
    · simp [h0]
    · intro hc
      exact not_clean_bit.2 (clean_or.mp hc).2

theorem sigaction_inv (hs : SigInv s) (sig actPtr oldPtr : Nat) (act : SigAction) :
    SigInv (s.sysSigaction h sig actPtr oldPtr act) := by
  unfold sysSigaction
  split
  · exact hs.setA0 _
  split
  · exact hs.setA0 _
  split
  · exact hs.setA0 _
  split
  · exact hs.setA0 _
  · exact hs.setProc_same fun _ => rfl

theorem sigreturn_exact (hs : SigInv s) (hp : s.proc (s.current h) = some p) (sp : Nat) (frame : SignalFrame) :
    Exact (isUserPointerValid signalFrameSize sp 1 = true → clean frame.savedBlocked)
      (s.sysSigreturn h sp frame) := by
  unfold sysSigreturn
  split
  · rename_i hv
    exact .of_inv (hs.setA0 _) fun hv' => absurd hv' (by simp [hv])
  · rename_i hv
    refine (Exact.setMask hs hp).congr ?_
    exact ⟨fun hc => hc (Bool.ne_false_iff.mp hv), fun hc _ => hc⟩

theorem tgkill_inv (hs : SigInv s) (tgid tid : Pid) (sig : Nat) : SigInv (s.sysTgkill h tgid tid sig) := by
  unfold sysTgkill
  split
  · split
    · refine SigInv.setA0 ?_ _
      exact hs.setProc_same fun _ => rfl
    · exact hs.setA0 _
  · exact hs.setA0 _

theorem kill_inv (hs : SigInv s) (target : Int) (sig : Nat) (dropped : Pid → List Pid) :
    SigInv (s.sysKill dropped h target sig) := by
  unfold sysKill
  dsimp only
  split
  · exact hs.setA0 _
  split
  · have he := hs.edited (exitAll_edited dropped (-9) (killOrder (s.current h)
      (s.killTargets (s.current h) target)) s)
    split
    · exact he.of_proc (fun _ => rfl) rfl
    · exact he.setA0 _
  split
  · exact hs.setA0 _
  · exact (hs.edited (Os.Edited.foldl (fun s q => post_edited sig q s) _ s)).setA0 _

/-- The mask comes back: that of `pid` must be clean only if none was saved. -/
theorem restoreSigmask_inv {pid : Pid} {ep : Nat} (hb : ∀ q p, s.proc q = some p → q ≠ pid → clean p.blockedSignals)
    (hpid : (s.epolls ep).savedSigmask = BitVec.allOnes 32 → ∀ p, s.proc pid = some p → clean p.blockedSignals)
    (hsv : ∀ e, (s.epolls e).savedSigmask = BitVec.allOnes 32 ∨ clean (s.epolls e).savedSigmask) :
    SigInv (s.restoreSigmask pid ep) := by
  have hsaved := fun e => @saved_setEpoll s ep { s.epolls ep with savedSigmask := BitVec.allOnes 32 } hsv (.inl rfl) e
  unfold restoreSigmask
  dsimp only
  split
  · rename_i hold
    refine ⟨fun q p hp => ?_, hsaved⟩
    by_cases hq : q = pid
    · exact hpid hold p (hq ▸ hp)
    · exact hb q p hp hq
  · rename_i hold
    exact ⟨forall_setProc (fun _ _ => (hsv ep).resolve_left hold) fun q p hq hp => hb q p hp hq, hsaved⟩

theorem epollPwait_exact (hs : SigInv s) (hp : s.proc (s.current h) = some p) (a : Os.EpollArgs) :
    Exact (SigCall.sleepsMasked a (s.current h) s = true → clean a.sigmask) (s.sysEpollPwait h a) := by
  unfold Os.sysEpollPwait SigCall.sleepsMasked
  dsimp only
  split
  · rename_i ht
    refine .of_inv (SigInv.setA0 (restoreSigmask_inv ?_ ?_ ?_) _) (by simp [ht])
    · exact fun q p hp _ => hs.blocked q p hp
    · exact fun _ p hp => hs.blocked _ p hp
    · exact saved_setEpoll hs.saved (hs.saved a.ep)
  rename_i ht
  split
  · rename_i hb
    exact .of_inv (hs.setA0 _) (by simp [hb])
  rename_i hb
  split
  · rename_i hm
    exact .of_inv (hs.setA0 _) (by simp [hm.2])
  rename_i hm
  have hsleep : ∀ {s1 : Os} (w : Nat), SigInv s1 → SigInv (s1.epollBlock h (s.current h) a.ep w) := by
    intro s1 w h1
    refine SigInv.of_proc (s := ((s1.setEpoll a.ep { s1.epolls a.ep with waiter := s.current h }).setProc
      (s.current h) fun p => { p.rewind with state := .stopped })) ?_ (fun _ => rfl) rfl
    exact SigInv.setProc_same ⟨h1.blocked, saved_setEpoll h1.saved (h1.saved a.ep)⟩ fun _ => rfl
  by_cases hmask : a.masks s = true
  · have hv : isUserPointerValid 1 a.sigmaskPtr 4 = true := Bool.ne_false_iff.mp fun e => hm ⟨hmask, e⟩
    have happ : s.applySigmask (s.current h) a.ep a.sigmask =
        (s.setEpoll a.ep { s.epolls a.ep with savedSigmask := p.blockedSignals }).setProc (s.current h)
          (fun p => { p with blockedSignals := a.sigmask }) := by
      unfold applySigmask
      rw [hp]
    have hset : SigInv (s.setEpoll a.ep { s.epolls a.ep with savedSigmask := p.blockedSignals }) :=
      ⟨hs.blocked, saved_setEpoll hs.saved (.inr (hs.blocked _ p hp))⟩
    rw [happ]
    split
    · rename_i hnow
      refine .of_inv (SigInv.setA0 (restoreSigmask_inv ?_ ?_ ?_) _) (by simp [hnow])
      · intro q p' hq hne
        rw [proc_setProc_of_ne hne] at hq
        exact hs.blocked q p' hq
      · intro hold
        have hsv : p.blockedSignals = BitVec.allOnes 32 := by
          simpa [setEpoll, setProc] using hold
        exact absurd (hsv ▸ hs.blocked _ p hp) not_clean_allOnes
      · exact hset.saved
    · rename_i hnow
      -- the caller sleeps with the mask that it was given
      have hC : ((!a.timedOut (s.current h) s && a.bufferOk && a.masks s && isUserPointerValid 1 a.sigmaskPtr 4 &&
          !a.atOnce) = true → clean a.sigmask) ↔ clean a.sigmask := by
        refine ⟨fun hc => hc ?_, fun hc _ => hc⟩
        simp [ht, Bool.ne_false_iff.mp hb, hmask, hv, hnow]
      refine Exact.congr ?_ hC
      by_cases hc : clean a.sigmask
      · refine .of_inv (hsleep _ (hset.setProc fun _ _ => hc)) hc
      · refine .of_not (not_unblocked (k := s.current h)
          (p := { ({ p with blockedSignals := a.sigmask } : Proc).rewind with state := .stopped }) ?_ hc) hc
        have hp' : (s.setEpoll a.ep { s.epolls a.ep with savedSigmask := p.blockedSignals }).proc (s.current h) =
            some p := hp
        simp only [epollBlock, proc_leave, proc_setProc_self]
        show ((((s.setEpoll a.ep { s.epolls a.ep with savedSigmask := p.blockedSignals }).setProc (s.current h)
          (fun p => { p with blockedSignals := a.sigmask })).proc (s.current h)).map _) = _
        rw [proc_setProc_self, hp']
        rfl
  · have hC : (!a.timedOut (s.current h) s && a.bufferOk && a.masks s && isUserPointerValid 1 a.sigmaskPtr 4 &&
        !a.atOnce) = true → clean a.sigmask := by
      simp [hmask]
    split
    · refine .of_inv (SigInv.setA0 (restoreSigmask_inv ?_ ?_ hs.saved) _) hC
      · exact fun q p hp _ => hs.blocked q p hp
      · exact fun _ p hp => hs.blocked _ p hp
    · exact .of_inv (hsleep _ hs) hC

theorem call_exact (hs : SigInv s) (hp : s.proc (s.current h) = some p) (c : SigCall) :
    Exact (c.Ok h s) (c.run h s) := by
  cases c with
  | sigprocmask how setPtr oldPtr set => exact sigprocmask_exact hs hp how setPtr oldPtr set
  | sigaction sig actPtr oldPtr act => exact .of_inv (sigaction_inv hs sig actPtr oldPtr act) trivial
  | sigreturn sp frame => exact sigreturn_exact hs hp sp frame
  | epollPwait a => exact epollPwait_exact hs hp a
  | kill target sig dropped => exact .of_inv (kill_inv hs target sig dropped) trivial
  | tgkill tgid tid sig => exact .of_inv (tgkill_inv hs tgid tid sig) trivial

end Calls

/-! ## The end of a trap -/

section Traps
variable {s : Os} {h : Nat} {p : Proc}

theorem lowestSet_getLsbD {w : BitVec 32} {i : Nat} (h : lowestSet w = some i) : w.getLsbD i = true :=
  List.find?_some h

/-- A handler is run for a signal that was pending; otherwise the mask stays. -/
theorem signalCheck_mask (frameOk : Bool) (p : Proc) :
    (∃ sig addr, (p.signalCheck frameOk).1 = .handler sig addr ∧ p.pendingSignals.getLsbD sig = true ∧
      (p.signalCheck frameOk).2.blockedSignals = p.handlerMask sig) ∨
    (∀ sig addr, (p.signalCheck frameOk).1 ≠ .handler sig addr) ∧
      (p.signalCheck frameOk).2.blockedSignals = p.blockedSignals := by
  unfold Proc.signalCheck
  split
  · exact .inr ⟨fun _ _ => Verdict.noConfusion, rfl⟩
  rename_i sig hsig
  have hpend : p.pendingSignals.getLsbD sig = true := by
    have := lowestSet_getLsbD hsig
    rw [Proc.deliverable, BitVec.getLsbD_and, Bool.and_eq_true] at this
    exact this.1
  dsimp only
  repeat' split
  all_goals first
    | exact .inr ⟨fun _ _ => Verdict.noConfusion, rfl⟩
    | exact .inl ⟨sig, _, rfl, hpend, rfl⟩

theorem trapReturn_inv (dropped : List Pid) (frameOk : Bool) (hp : s.proc (s.current h) = some p)
    (hs : SigInv (s.setProc (s.current h) fun _ => (p.signalCheck frameOk).2)) :
    SigInv (s.trapReturn dropped h frameOk) := by
  unfold trapReturn
  dsimp only
  rw [hp]
  dsimp only
  split
  · exact hs
  · exact hs
  · exact hs.edited (wakeStopped_edited _ _)
  · exact hs.of_proc (fun _ => rfl) rfl
  · exact (hs.edited (exit_edited _ _ _ _)).of_proc (fun _ => rfl) rfl

/-- The mask that a handler runs with stays. -/
theorem trapReturn_handler (dropped : List Pid) {frameOk : Bool} {sig addr : Nat}
    (hp : s.proc (s.current h) = some p) (hv : (p.signalCheck frameOk).1 = .handler sig addr) :
    s.trapReturn dropped h frameOk = s.setProc (s.current h) fun _ => (p.signalCheck frameOk).2 := by
  unfold trapReturn
  dsimp only
  rw [hp]
  dsimp only
  rw [hv]

theorem clean_handlerMask (hs : SigInv s) {k : Pid} (hp : s.proc k = some p) {sig : Nat}
    (hsig : p.pendingSignals.getLsbD sig = true) (hc : clean p.pendingSignals) :
    clean (p.handlerMask sig) ↔ clean (p.signalMasks sig) := by
  rw [Proc.handlerMask, clean_or, clean_or]
  exact ⟨fun h => h.1.2, fun h => ⟨⟨hs.blocked k p hp, h⟩, clean_bit (hc.ne hsig).1 (hc.ne hsig).2⟩⟩

theorem trapReturn_exact (hs : SigInv s) (frameOk : Bool) (dropped : List Pid) :
    ((SigOp.trapReturn h frameOk dropped).Ok s ↔
      (SigOp.trapReturn h frameOk dropped).Heeds s (s.trapReturn dropped h frameOk)) ∧
    ((SigOp.trapReturn h frameOk dropped).Heeds s (s.trapReturn dropped h frameOk) →
      SigInv (s.trapReturn dropped h frameOk)) := by
  cases hp : s.proc (s.current h) with
  | none =>
    have hr : s.trapReturn dropped h frameOk = s := by
      unfold Os.trapReturn
      dsimp only
      rw [hp]
    rw [hr]
    refine ⟨iff_of_true ?_ ⟨hs.blocked, ?_⟩, fun _ => hs⟩
    · exact fun p hp' => by rw [hp] at hp'; cases hp'
    · exact fun p hp' => by rw [hp] at hp'; cases hp'
  | some p =>
    have hok : (SigOp.trapReturn h frameOk dropped).Ok s ↔
        ((p.signalCheck frameOk).1.toUser = true → clean p.pendingSignals) ∧
          ∀ sig addr, (p.signalCheck frameOk).1 = .handler sig addr → clean (p.signalMasks sig) := by
      refine ⟨fun hc => hc p hp, fun hc p' hp' => ?_⟩
      rw [hp] at hp'
      cases hp'
      exact hc
    have hheeds : (SigOp.trapReturn h frameOk dropped).Heeds s (s.trapReturn dropped h frameOk) ↔
        Unblocked (s.trapReturn dropped h frameOk) ∧ (p.signalCheck frameOk).1.Heeds p := by
      refine and_congr_right fun _ => ⟨fun hc => hc p hp, fun hc p' hp' => ?_⟩
      rw [hp] at hp'
      cases hp'
      exact hc
    rw [hok, hheeds]
    obtain ⟨sig, addr, hv, hsig, hmask⟩ | ⟨hv, hmask⟩ := signalCheck_mask frameOk p
    · have hu := Exact.setMask (f := fun _ => (p.signalCheck frameOk).2) hs hp
      rw [← trapReturn_handler dropped hp hv, hmask] at hu
      refine ⟨?_, fun hc => hu.2 hc.1⟩
      rw [← hu.1, hv]
      constructor
      · rintro ⟨hc, hm⟩
        have hc' := hc rfl
        have hm' := hm sig addr rfl
        refine ⟨(clean_handlerMask hs hp hsig hc').mpr hm', fun sig' addr' e => ?_, fun _ => hc'⟩
        cases e
        exact hc'.ne hsig
      · rintro ⟨hm, -, hc⟩
        refine ⟨hc, fun sig' addr' e => ?_⟩
        cases e
        exact (clean_handlerMask hs hp hsig (hc rfl)).mp hm
    · have hi : SigInv (s.trapReturn dropped h frameOk) := by
        refine trapReturn_inv dropped frameOk hp (hs.setProc fun p' hp' => ?_)
        rw [hmask]
        exact hs.blocked _ p hp
      refine ⟨⟨fun hc => ⟨hi.blocked, fun sig addr e => absurd e (hv sig addr), hc.1⟩, fun hc => ?_⟩, fun _ => hi⟩
      exact ⟨hc.2.2, fun sig addr e => absurd e (hv sig addr)⟩

theorem dispatch_inv (hs : SigInv s) (h : Nat) : SigInv (s.dispatch h) := by
  unfold dispatch
  split
  · split
    · exact hs
    · dsimp only
      split
      · exact hs.of_proc (fun _ => rfl) rfl
      · split
        · exact hs.of_proc (fun _ => rfl) rfl
        · refine SigInv.of_proc (hs.setProc_same (f := fun p => { p with state := .running }) fun _ => rfl)
            (fun _ => rfl) rfl
  · exact hs

end Traps

theorem SigInv.start_one : SigInv (start [(1, {})]) where
  blocked q p hp := by
    rw [proc, start, List.foldl_cons, List.foldl_nil, Table.get_insert] at hp
    split at hp
    · cases hp
      decide
    · cases hp
  saved _ := .inl rfl

end OpenV.Sched
