import OpenV.Lib.Index
import OpenV.Sched.Irq
import OpenV.Sched.NetSteps
import OpenV.Sched.Phases
import OpenV.Sched.Queue
import OpenV.Sched.Sleep

/- What the death of a process does to those that wait for it in a rendezvous.
   `exit` takes its senders out and gives an error to everybody who waits for it,
   but lets only those run that are in the state Stopped, which no rendezvous call
   enters; and it does not take the dying process out of the queue it waits in. -/
namespace OpenV.Sched

open Function Os Sched.ProcState List

def IpcState.blocksOn (pid : Pid) : IpcState → Bool
  | .sending target _ _ => target == pid
  | .receiving source _ => source == pid
  | .receivingReply source _ => source == pid
  | _ => false

namespace Os

/-- `q` waits for `pid`, and nothing will let it run. -/
def BlockedOn (s : Os) (pid q : Pid) : Prop :=
  ∃ p, s.proc q = some p ∧ p.ipc.blocksOn pid = true ∧ ¬s.Runnable q

end Os

/-- Every process in a queue of senders is alive and sending to the owner of the queue. -/
def SendersOk (s : Os) : Prop :=
  ∀ t b q, s.proc t = some b → q ∈ b.senders →
    ∃ p m r, s.proc q = some p ∧ p.ipc = .sending t m r ∧ ProcState.isZombie p.state = false

/-- Those that waited for `pid` can run, and nobody waits for it. -/
def Released (pid : Pid) (s s' : Os) : Prop :=
  (∀ q, q ≠ pid → s.BlockedOn pid q → q ∈ s'.queued) ∧ ∀ q, ¬s'.BlockedOn pid q

inductive PeerOp where
  | ipc (op : RvOp)
  /-- a process exits or is killed -/
  | exit (dropped : List Pid) (pid : Pid) (status : Int)
  /-- a hart leaves a process that has exited -/
  | idle (h : Nat)
  /-- a signal other than SIGKILL -/
  | signal (sig : Nat) (pid : Pid)
  | setState (h : Nat) (cap : Bool) (target : Pid) (state : Nat)

namespace PeerOp

def step : PeerOp → Os → Option Os
  | ipc op, s => (op.step s).map Prod.fst
  | exit dropped pid status, s => some (s.exit dropped pid status)
  | idle h, s => some (s.leave h)
  | signal sig pid, s => some (s.post sig pid)
  | setState h cap target state, s => some (s.sysSetProcessState h cap target state)

def run (op : PeerOp) : Cmd Os Unit := fun s =>
  match op.step s with
  | none => (.panic "kernel panic", s)
  | some s' => (.ok (), s')

/-- What the step must do. -/
def Good : PeerOp → Os → Os → Prop
  | exit _ pid _, s, s' => SendersOk s' ∧ ((s.proc pid).isSome = true → Released pid s s')
  | _, _, s' => SendersOk s'

/-- The caller is alive and not waiting to send. -/
def CallerOk (s : Os) (h pc : Nat) (call : Call) : Prop :=
  ∀ me, s.caller h pc call = some me → ∀ p, s.proc me = some p →
    p.ipc.target = none ∧ ProcState.isZombie p.state = false

/-- What the step needs: calls are made by processes that are alive and in no queue, a receive has a valid pointer, and
a process ends only when it is in no queue and all that wait for it off the run queue are stopped. -/
def Safe (s : Os) : PeerOp → Prop
  | ipc (.send h pc dest ptr _) => CallerOk s h pc (.send dest ptr)
  | ipc (.sendrec h pc dest ptr _) => CallerOk s h pc (.sendrec dest ptr)
  | ipc (.receive h pc src ptr) => CallerOk s h pc (.receive src ptr) ∧ isUserPointerValid messageSize ptr 1 = true
  | exit _ pid _ => ∀ p, s.proc pid = some p → p.ipc.target = none ∧
      ∀ q a, q ≠ pid → s.proc q = some a → a.ipc.blocksOn pid = true → ¬s.Runnable q → a.state = .stopped
  | _ => True

end PeerOp

/-! ## The invariant -/

namespace Os

def senders (s : Os) (t : Pid) : List Pid := (s.proc t).elim [] Proc.senders

def target (s : Os) (q : Pid) : Option Pid := (s.proc q).elim none fun p => p.ipc.target

end Os

structure PeerInv (s : Os) : Prop where
  index : Indexed s.senders s.target
  live : ∀ q p, s.proc q = some p → p.ipc.target ≠ none → ProcState.isZombie p.state = false
  locks : ∀ file, s.lockWaiters file = []

variable {s : Os}

theorem PeerInv.sendersOk (h : PeerInv s) : SendersOk s := by
  intro t b q hb hq
  have htarget := (h.index.mem t q).mp (by rw [senders, hb]; exact hq)
  unfold target at htarget
  cases hp : s.proc q with
  | none =>
    rw [hp] at htarget
    cases htarget
  | some p =>
    rw [hp] at htarget
    change p.ipc.target = some t at htarget
    have hlive := h.live q p hp (by rw [htarget]; exact nofun)
    cases hi : p.ipc with
    | sending t' m r =>
      rw [hi] at htarget
      cases htarget
      exact ⟨p, m, r, rfl, hi, hlive⟩
    | _ =>
      rw [hi] at htarget
      cases htarget

/-- Nothing changes for the queues of senders. -/
structure PeerSame (p p' : Proc) : Prop where
  senders : p'.senders = p.senders
  target : p'.ipc.target = p.ipc.target
  live : ProcState.isZombie p'.state = true → ProcState.isZombie p.state = true

theorem PeerSame.refl (p : Proc) : PeerSame p p := ⟨rfl, rfl, id⟩

theorem PeerSame.trans {a b c : Proc} (h : PeerSame a b) (h' : PeerSame b c) : PeerSame a c :=
  ⟨h'.senders.trans h.senders, h'.target.trans h.target, fun e => h.live (h'.live e)⟩

theorem PeerSame.of_soft {p p' : Proc} (h : Soft p p') : PeerSame p p' := by
  rw [h]
  exact ⟨rfl, rfl, id⟩

theorem PeerSame.wake (p : Proc) : PeerSame p { p with state := .running } :=
  ⟨rfl, rfl, nofun⟩

/-- Two states with the same queues of senders. -/
structure SamePeers (s s' : Os) : Prop where
  each : s.Each PeerSame s'
  locks : s'.lockWaiters = s.lockWaiters

open SamePeers

namespace SamePeers
variable {s s' s'' : Os} {q : Pid} {f : Proc → Proc}

theorem refl (s : Os) : SamePeers s s := ⟨Os.Each.refl PeerSame.refl s, rfl⟩

theorem trans (h : SamePeers s s') (h' : SamePeers s' s'') : SamePeers s s'' :=
  ⟨Os.Each.trans (fun a b => a.trans b) h.each h'.each, h'.locks.trans h.locks⟩

theorem of_proc (h : ∀ q, s'.proc q = s.proc q) (hl : s'.lockWaiters = s.lockWaiters) : SamePeers s s' :=
  ⟨Os.Each.of_proc PeerSame.refl h, hl⟩

theorem setProc (h : ∀ p, s.proc q = some p → PeerSame p (f p)) : SamePeers s (s.setProc q f) :=
  ⟨Os.Each.setProc PeerSame.refl h, rfl⟩

theorem setA0 (s : Os) (q : Pid) (v : Nat) : SamePeers s (s.setA0 q v) := .setProc fun _ _ => ⟨rfl, rfl, id⟩

theorem enqueue (s : Os) (q : Pid) : SamePeers s (s.enqueue q) := .of_proc (fun _ => rfl) rfl

theorem sleepAgain (s : Os) (q : Pid) (h : Nat) : SamePeers s (s.sleepAgain h q) := by
  have h1 : SamePeers s (s.setProc q Proc.rewind) := .setProc fun _ _ => ⟨rfl, rfl, id⟩
  exact h1.trans (.of_proc (fun _ => rfl) rfl)

/-- The state word changes, and the process sends neither before nor after. -/
theorem setIpc {p : Proc} {ipc : IpcState} (hp : s.proc q = some p) (ht : p.ipc.target = none)
    (hi : ipc.target = none) : SamePeers s (s.setIpc q ipc) := by
  refine .setProc fun p' hp' => ?_
  rw [hp] at hp'
  cases hp'
  exact ⟨rfl, hi.trans ht.symm, id⟩

theorem milds (h : Milds s s') : SamePeers s s' := by
  refine ⟨h.each PeerSame.refl (fun a b => a.trans b) PeerSame.of_soft fun _ => .wake _, ?_⟩
  exact Milds.lift (R := fun s s' => s'.lockWaiters = s.lockWaiters) (fun _ => rfl) (fun a b => b.trans a)
    (fun _ => rfl) (fun _ _ => rfl) h

theorem senders (h : SamePeers s s') : s'.senders = s.senders := funext (h.each.elim PeerSame.senders [])

theorem target (h : SamePeers s s') : s'.target = s.target := funext (h.each.elim PeerSame.target none)

theorem inv (h : SamePeers s s') (hs : PeerInv s) : PeerInv s' where
  index := hs.index.congr h.senders h.target
  live q p' hp' ht := by
    obtain ⟨p, hp, e⟩ := h.each.of_some hp'
    rw [e.target] at ht
    have hlive := hs.live q p hp ht
    cases hz : isZombie p'.state with
    | false => rfl
    | true => exact absurd (hlive.symm.trans (e.live hz)) Bool.false_ne_true
  locks file := by
    rw [h.locks]
    exact hs.locks file

end SamePeers

theorem PeerInv.of_proc {s' : Os} (hs : PeerInv s) (h : ∀ q, s'.proc q = s.proc q)
    (hl : s'.lockWaiters = s.lockWaiters) : PeerInv s' :=
  (SamePeers.of_proc h hl).inv hs

/-! ## Calls -/

section Calls
variable {s : Os} {h pc : Nat} {me dest src q k : Pid} {ptr : Nat} {body : Message} {p b : Proc} {f : Proc → Proc}

theorem Os.senders_of (hp : s.proc q = some p) : s.senders q = p.senders := by
  rw [senders, hp]
  rfl

theorem Os.target_of (hp : s.proc q = some p) : s.target q = p.ipc.target := by
  rw [target, hp]
  rfl

theorem Os.elim_setProc {β : Type} (d : β) (F : Proc → β) : ((s.setProc k f).proc q).elim d F =
    if q = k then (s.proc k).elim d fun p => F (f p) else (s.proc q).elim d F := by
  rw [proc_setProc]
  split
  · rename_i e
    subst e
    cases s.proc q <;> rfl
  · rfl

theorem Os.senders_setProc : (s.setProc k f).senders q =
    if q = k then (s.proc k).elim [] fun p => (f p).senders else s.senders q := elim_setProc ..

theorem Os.target_setProc : (s.setProc k f).target q =
    if q = k then (s.proc k).elim none fun p => (f p).ipc.target else s.target q := elim_setProc ..

/-- `q` leaves the queue of `t`. -/
theorem PeerInv.quit {F G : Proc → Proc} {t : Pid} (hs : PeerInv s) (hq : s.proc q = some p)
    (htarget : p.ipc.target = some t) (hF : ∀ a, (F a).ipc = a.ipc ∧ (F a).state = a.state)
    (hsend : ∀ a, a.senders.Nodup → (F a).senders.Nodup ∧ ∀ r, r ∈ (F a).senders ↔ r ≠ q ∧ r ∈ a.senders)
    (hG : ∀ a, (G a).senders = a.senders ∧ (G a).ipc.target = none) : PeerInv ((s.setProc t F).setProc q G) := by
  have hsenders : ∀ u, ((s.setProc t F).setProc q G).senders u = (s.setProc t F).senders u := by
    intro u
    rw [senders_setProc]
    split
    · rename_i e
      simp only [e, Os.senders, (hG _).1]
    · rfl
  have hself : ((s.setProc t F).senders t).Nodup ∧ ∀ r, r ∈ (s.setProc t F).senders t ↔ r ≠ q ∧ r ∈ s.senders t := by
    rw [senders_setProc, if_pos rfl]
    have hnodup := hs.index.nodup t
    revert hnodup
    unfold Os.senders
    cases s.proc t with
    | none => simp
    | some a => exact hsend a
  refine ⟨hs.index.quit ((target_of hq).trans htarget) ?_ (fun u hu => ?_) ?_ (fun u hu => ?_),
    forall_setProc (fun a _ e => absurd (hG a).2 e) fun q a _ => ?_, hs.locks⟩
  · rw [hsenders]
    exact hself
  · rw [hsenders, senders_setProc, if_neg hu]
  · rw [target_setProc]
    simp only [(hG _).2]
    cases (s.setProc t F).proc q <;> rfl
  · rw [target_setProc, if_neg hu, target_setProc]
    split
    · rename_i e
      simp only [e, Os.target, (hF _).1]
    · rfl
  · refine forall_setProc (fun a ha ht => ?_) (fun q a _ => hs.live q a) q a
    rw [(hF a).1] at ht
    rw [(hF a).2]
    exact hs.live t a ha ht

variable {msg : Message} {r : Option Nat}

theorem queueUp_peers (hs : PeerInv s) (hp : s.proc me = some p) (ht : p.ipc.target = none)
    (hz : ProcState.isZombie p.state = false) (hb : s.proc dest = some b) (hne : dest ≠ me) :
    PeerInv (s.queueUp h me dest msg r) := by
  refine (sleepAgain _ me h).inv ?_
  have hb1 : (s.setIpc me (.sending dest msg r)).proc dest = some b := by
    rw [Os.setIpc, Os.proc_setProc_of_ne hne, hb]
  have hmid : ∀ q' p', (s.setIpc me (.sending dest msg r)).proc q' = some p' → p'.ipc.target ≠ none →
      ProcState.isZombie p'.state = false := by
    refine Os.forall_setProc (fun p' hp' _ => ?_) fun q p _ => hs.live q p
    rw [hp] at hp'
    cases hp'
    exact hz
  refine ⟨hs.index.join (t := dest) ((Os.target_of hp).trans ht) ?_ (fun u hu => ?_) ?_ (fun u hu => ?_),
    Os.forall_setProc (hmid dest) fun q p _ => hmid q p, hs.locks⟩
  · rw [Os.senders_setProc, if_pos rfl, hb1, Os.senders_of hb]
    rfl
  · rw [Os.senders_setProc, if_neg hu, Os.setIpc, Os.senders_setProc]
    split
    · rename_i e
      subst e
      rfl
    · rfl
  · rw [Os.target_setProc, if_neg hne.symm, Os.setIpc, Os.target_setProc, if_pos rfl, hp]
    rfl
  · have h1 : (s.setIpc me (.sending dest msg r)).target u = s.target u := by
      rw [Os.setIpc, Os.target_setProc, if_neg hu]
    rw [Os.target_setProc]
    split
    · rename_i e
      subst e
      rw [hb1, Os.target_of hb]
      rfl
    · exact h1

theorem deposit_peers (hb : s.proc dest = some b) (hr : b.ipc.receives me = true ∨ b.ipc.receivesReply me = true) :
    SamePeers s (s.deposit dest msg) :=
  (setIpc hb (target_receives hr) rfl).trans (.enqueue _ dest)

/-- A sender is taken out of the queue and told. -/
theorem handOver_peers {sender : Pid} (hs : PeerInv s) (hp : s.proc me = some p) (hq : sender ∈ p.senders)
    (hb : s.proc sender = some b) :
    PeerInv ((s.setProc me fun p => { p with senders := p.senders.erase sender }).handOver sender me r) := by
  have htarget : b.ipc.target = some me := by
    rw [← target_of hb, ← hs.index.mem, senders_of hp]
    exact hq
  -- both answers leave the sender in no queue
  have hset : ∀ i : IpcState, i.target = none →
      PeerInv (setIpc sender i (s.setProc me fun p => { p with senders := p.senders.erase sender })) := by
    intro i hi
    exact hs.quit hb htarget (fun _ => ⟨rfl, rfl⟩) (fun a ha => ⟨ha.erase sender, fun _ => ha.mem_erase_iff⟩)
      fun _ => ⟨rfl, hi⟩
  cases r with
  | some rp => exact hset _ rfl
  | none => exact (enqueue _ sender).inv (hset _ rfl)

section
variable (hs : PeerInv s) (hp : s.proc me = some p) (ht : p.ipc.target = none)
include hs hp ht

theorem send_peers (hz : isZombie p.state = false) :
    (ipcSend h me dest ptr body s).elim True fun r => PeerInv r.1 := by
  unfold ipcSend
  rw [hp]
  dsimp only
  split
  · exact ((setIpc hp ht rfl).trans (.setA0 _ me 0)).inv hs
  split
  · exact (setA0 s me _).inv hs
  split
  · exact (setA0 s me _).inv hs
  rename_i b hb
  split
  · rename_i hr
    exact ((deposit_peers hb (Bool.or_eq_true_iff.mp hr)).trans (.setA0 _ me 0)).inv hs
  split
  · trivial
  · rename_i hne
    exact queueUp_peers hs hp ht hz hb hne

theorem sendrec_peers (hz : ProcState.isZombie p.state = false) :
    (ipcSendrec h me dest ptr body s).elim True fun r => PeerInv r.1 := by
  unfold ipcSendrec
  rw [hp]
  dsimp only
  split
  · exact ((setIpc hp ht rfl).trans (.setA0 _ me 0)).inv hs
  · exact (sleepAgain s me h).inv hs
  · split
    · exact (setA0 s me _).inv hs
    rename_i b hb
    split
    · trivial
    rename_i hne
    split
    · rename_i hr
      have h1 : SamePeers s (s.deposit dest { body with source := me }) := deposit_peers hb (.inl hr)
      have h2 : SamePeers (s.deposit dest { body with source := me })
          (setIpc me (.receivingReply dest ptr) (s.deposit dest { body with source := me })) := by
        refine .setIpc ?_ ht rfl
        rw [deposit, proc_enqueue, proc_setProc_of_ne (Ne.symm hne), hp]
      exact ((h1.trans h2).trans (.sleepAgain _ me h)).inv hs
    · exact queueUp_peers hs hp ht hz hb hne
  · exact ((setIpc hp ht rfl).trans (.setA0 _ me _)).inv hs

theorem receive_peers (hv : isUserPointerValid messageSize ptr 1 = true) :
    (ipcReceive h me src ptr s).elim True fun r => PeerInv r.1 := by
  have hv' : ¬isUserPointerValid messageSize ptr 1 = false := fun e => Bool.false_ne_true (e.symm.trans hv)
  unfold ipcReceive
  rw [hp]
  dsimp only
  split
  · rw [if_neg hv']
    have h1 : SamePeers s (s.takeMessage me) := by
      refine .setProc fun p' hp' => ?_
      rw [hp] at hp'
      cases hp'
      cases hpd : p.irqPending with
      | nil => exact ⟨rfl, ht.symm, id⟩
      | cons m rest => exact ⟨rfl, ht.symm, id⟩
    exact (h1.trans (.setA0 _ me _)).inv hs
  split
  · rename_i msg _
    rw [if_neg hv']
    have h1 : SamePeers s (s.setProc me fun p => { p with irqPending := p.irqPending.erase msg }) :=
      .setProc fun _ _ => ⟨rfl, rfl, id⟩
    exact (h1.trans (.setA0 _ me _)).inv hs
  unfold receiveQueued
  split
  · exact ((setIpc hp ht rfl).trans (.sleepAgain _ me h)).inv hs
  rename_i sender hf
  have hq : sender ∈ p.senders := mem_of_find?_eq_some hf
  obtain ⟨b, m, r, hb, hbi, -⟩ := hs.sendersOk me p sender hp hq
  have hne : sender ≠ me := by
    rintro rfl
    rw [hp] at hb
    cases hb
    rw [hbi] at ht
    cases ht
  have hb1 : (s.setProc me fun p => { p with senders := p.senders.erase sender }).proc sender = some b := by
    rw [proc_setProc_of_ne hne, hb]
  dsimp only
  rw [hb1]
  dsimp only
  rw [hbi]
  dsimp only
  rw [if_neg hv']
  exact (setA0 _ me _).inv (handOver_peers hs hp hq hb)

end

theorem kernelSendMsg_peers : SamePeers s (s.kernelSendMsg me msg) := by
  unfold kernelSendMsg
  split
  · exact .refl s
  rename_i p hp
  split
  · rename_i hr
    exact deposit_peers hp (.inl hr)
  split
  · rename_i hi
    exact .setIpc hp (by rw [hi]; rfl) rfl
  · exact .setProc fun _ _ => ⟨rfl, rfl, id⟩

theorem viaCall_peers {call : Call} {g : Pid → Os → Option (Os × List Event)} (hs : PeerInv s)
    (hc : PeerOp.CallerOk s h pc call)
    (hg : ∀ {s' me p}, PeerInv s' → s'.proc me = some p → p.ipc.target = none → ProcState.isZombie p.state = false →
      (g me s').elim True fun r => PeerInv r.1) : (RvOp.viaCall h pc call g s).elim True fun r => PeerInv r.1 := by
  unfold RvOp.viaCall
  cases hcall : s.caller h pc call with
  | none => exact hs
  | some me =>
    obtain ⟨-, p, hp, -⟩ := caller_eq hcall
    obtain ⟨ht, hz⟩ := hc me hcall p hp
    have h1 : SamePeers s (s.setProc me (Proc.enter pc call)) := .setProc fun _ _ => ⟨rfl, rfl, id⟩
    have hp1 : (s.setProc me (Proc.enter pc call)).proc me = some (p.enter pc call) := by
      rw [proc_setProc_self, hp]
      rfl
    exact hg (h1.inv hs) hp1 ht hz

end Calls

/-! ## Exit -/

section Exit
variable {s s' : Os} {pid q k : Pid} {p : Proc} {dropped : List Pid} {status : Int}

/-- `q` can run, or is stopped, so that `exit` lets it run. -/
def Wakeable (s : Os) (q : Pid) : Prop := q ∈ s.queued ∨ ∃ a, s.proc q = some a ∧ a.state = .stopped

variable {f : Proc → Proc} {l : List Pid} {i : IpcState}

theorem Wakeable.setProc (hw : Wakeable s q) (hf : ∀ a, (f a).state = a.state) : Wakeable (s.setProc k f) q := by
  rcases hw with hw | ⟨a, ha, hs⟩
  · exact .inl hw
  · refine .inr ?_
    rw [proc_setProc, ha]
    split
    · exact ⟨f a, rfl, (hf a).trans hs⟩
    · exact ⟨a, rfl, hs⟩

theorem Wakeable.enqueued {prio : Int} (hw : Wakeable s q) :
    Wakeable ((s.setProc k f).enqueueWithPrio k prio) q := by
  by_cases hq : q = k
  · refine .inl ?_
    rw [queued_enqueueWithPrio, hq]
    exact mem_append_right _ (.head _)
  · rcases hw with hw | ⟨a, ha, hs⟩
    · refine .inl ?_
      rw [queued_enqueueWithPrio]
      exact mem_append_left _ hw
    · refine .inr ⟨a, ?_, hs⟩
      rw [proc_enqueueWithPrio, proc_setProc_of_ne hq, ha]

/-- The processes `l`, and no others, no longer wait. -/
def Spares (l : List Pid) (s s' : Os) : Prop :=
  ∀ q, Option.Rel (fun a a' => a'.senders = a.senders ∧ (a'.ipc = if q ∈ l then IpcState.none else a.ipc) ∧
    (ProcState.isZombie a'.state = true → ProcState.isZombie a.state = true)) (s.proc q) (s'.proc q)

theorem Spares.refl (s : Os) : Spares [] s s := by
  intro q
  cases s.proc q with
  | none => exact .none
  | some a => exact .some ⟨rfl, rfl, id⟩

theorem Spares.trans {l' : List Pid} {s'' : Os} (h : Spares l s s') (h' : Spares l' s' s'') :
    Spares (l ++ l') s s'' := by
  intro q
  refine rel_trans (h q) (h' q) fun _ _ _ hab hbc => ⟨hbc.1.trans hab.1, ?_, fun e => hab.2.2 (hbc.2.2 e)⟩
  rw [hbc.2.1, hab.2.1]
  by_cases h3 : q ∈ l <;> by_cases h4 : q ∈ l' <;> simp [h4]

/-- The processes `l`, and no others, are given an error instead of what they wait for; those of them that can be woken
are in the run queue, and nobody leaves it. -/
structure Unblocks (l : List Pid) (s s' : Os) : Prop where
  each : Spares l s s'
  wakeable : ∀ q, Wakeable s q → Wakeable s' q
  woken : ∀ q ∈ l, Wakeable s q → (s.proc q).isSome = true → q ∈ s'.queued
  queued : s.queued <+: s'.queued
  locks : s'.lockWaiters = s.lockWaiters

namespace Unblocks
variable {l l' : List Pid} {s'' : Os}

/-- Something else changes. -/
theorem of_proc (hp : ∀ q, s'.proc q = s.proc q) (hq : s'.queued = s.queued) (hl : s'.lockWaiters = s.lockWaiters) :
    Unblocks [] s s' where
  each q := by
    rw [hp]
    exact Spares.refl s q
  wakeable q hw := by
    unfold Wakeable
    rw [hq, hp]
    exact hw
  woken := nofun
  queued := hq ▸ prefix_refl s.queued
  locks := hl

theorem refl (s : Os) : Unblocks [] s s := .of_proc (fun _ => rfl) rfl rfl

theorem trans (h : Unblocks l s s') (h' : Unblocks l' s' s'') : Unblocks (l ++ l') s s'' where
  each := h.each.trans h'.each
  wakeable q hw := h'.wakeable q (h.wakeable q hw)
  woken q hq hw hp := by
    rcases mem_append.mp hq with e | e
    · exact h'.queued.subset (h.woken q e hw hp)
    · obtain ⟨a, ha⟩ := Option.isSome_iff_exists.mp hp
      obtain ⟨a', ha', -⟩ := rel_some (h.each q) ha
      exact h'.woken q e (h.wakeable q hw) (Option.isSome_of_eq_some ha')
  queued := h.queued.trans h'.queued
  locks := h'.locks.trans h.locks

/-- A step that gives nobody an error. -/
theorem then_nil (h : Unblocks l s s') (h' : Unblocks [] s' s'') : Unblocks l s s'' := by
  have := h.trans h'
  rwa [append_nil] at this

variable {step : Os → Pid → Os}

theorem foldl (h : ∀ (s : Os) q, Unblocks [q] s (step s q)) :
    ∀ (l : List Pid) (s : Os), Unblocks l s (l.foldl step s)
  | [], s => .refl s
  | q :: l, s => (h s q).trans (foldl h l (step s q))

theorem foldl_nil (h : ∀ (s : Os) q, Unblocks [] s (step s q)) :
    ∀ (l : List Pid) (s : Os), Unblocks [] s (l.foldl step s)
  | [], s => .refl s
  | q :: l, s => (h s q).then_nil (foldl_nil h l (step s q))

theorem milds (h : Milds s s') : Unblocks [] s s' where
  each q := by
    have he := h.each (R := fun a a' => a'.senders = a.senders ∧ a'.ipc = a.ipc ∧
      (ProcState.isZombie a'.state = true → ProcState.isZombie a.state = true)) (fun _ => ⟨rfl, rfl, id⟩)
      (fun a b => ⟨b.1.trans a.1, b.2.1.trans a.2.1, fun e => a.2.2 (b.2.2 e)⟩)
      (fun {p p'} hs => by unfold Soft at hs; rw [hs]; exact ⟨rfl, rfl, id⟩) (fun _ => ⟨rfl, rfl, nofun⟩)
    exact he q
  wakeable := by
    refine Milds.lift (R := fun s s' => ∀ q, Wakeable s q → Wakeable s' q) (fun _ _ h => h)
      (fun a b q h => b q (a q h)) (fun {s q f} hf q' hw => hw.setProc fun a => ?_) (fun _ _ _ hw => hw.enqueued) h
    have := hf a
    rw [this]
  woken _ h := by cases h
  queued := h.queued
  locks := (SamePeers.milds h).locks

theorem resume (s : Os) (q : Pid) : Unblocks [] s (s.resume q) := by
  unfold Os.resume
  split
  · exact .refl s
  rename_i p hp
  refine ⟨fun q' => ?_, fun q' hw => hw.enqueued, nofun, ?_, rfl⟩
  · rw [proc_enqueueWithPrio, proc_setProc]
    by_cases hq : q' = q
    · rw [if_pos hq, hq, hp]
      exact .some ⟨rfl, rfl, nofun⟩
    · rw [if_neg hq]
      exact Spares.refl s q'
  · rw [queued_enqueueWithPrio]
    exact prefix_append _ _

theorem wakeFutex (s : Os) (addr : Nat) : Unblocks [] s (s.wakeFutex addr) := by
  have h1 : Unblocks [] s { s with futexes := update s.futexes addr [] } := .of_proc (fun _ => rfl) rfl rfl
  exact h1.then_nil (foldl_nil resume _ _)

/-- Waking who is stopped. -/
theorem mem_wakeStopped {a : Proc} (ha : s.proc q = some a) (hw : q ∈ s.queued ∨ a.state = .stopped) :
    q ∈ (s.wakeStopped q).queued := by
  rcases hw with hw | hw
  · exact (wakeStopped_milds q s).queued.subset hw
  · unfold wakeStopped
    rw [ha]
    dsimp only
    rw [if_pos hw, queued_enqueueWithPrio]
    exact mem_append_right _ (.head _)

theorem unblock (s : Os) (q : Pid) : Unblocks [q] s (s.unblock q) := by
  have hlast : Unblocks [] (s.setProc q fun p => { p with sepc := p.sepc + 4, a0 := ESRCH, ipc := .none })
      (s.unblock q) := milds (wakeStopped_milds q _)
  have hfirst : Spares [q] s (s.setProc q fun p => { p with sepc := p.sepc + 4, a0 := ESRCH, ipc := .none }) := by
    intro q'
    rw [proc_setProc]
    by_cases hq : q' = q <;> simp only [hq, if_true]
    all_goals
      cases s.proc _ with
      | none => exact .none
      | some a => exact .some ⟨rfl, by simp [hq], id⟩
  refine ⟨?_, fun q' hw => hlast.wakeable q' (hw.setProc fun _ => rfl), fun q' hq hw hp => ?_, hlast.queued, hlast.locks⟩
  · have heach := hfirst.trans hlast.each
    rwa [append_nil] at heach
  · obtain rfl := mem_singleton.mp hq
    obtain ⟨a, ha⟩ := Option.isSome_iff_exists.mp hp
    have ha1 : (s.setProc q' fun p => { p with sepc := p.sepc + 4, a0 := ESRCH, ipc := .none }).proc q' =
        some { a with sepc := a.sepc + 4, a0 := ESRCH, ipc := .none } := by
      rw [proc_setProc_self, ha]
      rfl
    refine mem_wakeStopped ha1 ?_
    rcases hw with hw | ⟨a', ha', hs⟩
    · exact .inl hw
    · rw [ha] at ha'
      cases ha'
      exact .inr hs

theorem wakeLockWaiters (file : Nat) (hl : s.lockWaiters file = []) : Unblocks [] s (s.wakeLockWaiters file) := by
  have hsame : update s.lockWaiters file [] = s.lockWaiters := by rw [← hl, update_eq_self]
  have he : s.wakeLockWaiters file = { s with fileLocks := update s.fileLocks file (s.fileLocks file) } := by
    unfold Os.wakeLockWaiters
    rw [hl]
    change { s with fileLocks := _, lockWaiters := update s.lockWaiters file [] } = _
    rw [hsame]
    rfl
  rw [he]
  exact .of_proc (fun _ => rfl) rfl rfl

/-- With nobody waiting for a record lock, releasing them wakes nobody. -/
theorem releaseAllLocks (pid : Pid) (hl : ∀ file, s.lockWaiters file = []) :
    Unblocks [] s (s.releaseAllLocks pid) := by
  have hall : ∀ (files : List Nat) (s : Os), (∀ file, s.lockWaiters file = []) →
      Unblocks [] s (files.foldl (fun s file => s.wakeLockWaiters file) s) := by
    intro files
    induction files with
    | nil => exact fun s _ => .refl s
    | cons file files ih =>
      intro s hl
      have h1 := wakeLockWaiters file (hl file)
      exact h1.then_nil (ih _ fun file' => by rw [h1.locks]; exact hl file')
  have h0 : Unblocks [] s { s with fileLocks := fun file => (s.fileLocks file).filter fun e => e.pid != pid } :=
    .of_proc (fun _ => rfl) rfl rfl
  exact h0.then_nil (hall _ _ hl)

end Unblocks

theorem enqueueAll_proc (l : List Pid) (s : Os) : (∀ q, (l.foldl (fun s q => s.enqueue q) s).proc q = s.proc q) ∧
      s.queued <+: (l.foldl (fun s q => s.enqueue q) s).queued ∧
      (l.foldl (fun s q => s.enqueue q) s).lockWaiters = s.lockWaiters := by
  induction l generalizing s with
  | nil => exact ⟨fun _ => rfl, prefix_refl _, rfl⟩
  | cons q l ih =>
    obtain ⟨h1, h2, h3⟩ := ih (s.enqueue q)
    refine ⟨fun q' => (h1 q').trans rfl, ?_, h3⟩
    refine List.IsPrefix.trans ?_ h2
    rw [queued_enqueue]
    exact prefix_append _ _

theorem markDead_proc (q : Pid) : (s.markDead dropped pid status).proc q =
    if q = pid then (s.proc q).map fun p => { p with state := .zombie status, senders := [] } else s.proc q := by
  unfold markDead
  rw [(enqueueAll_proc dropped _).1, proc_setProc]

/-- The dying process loses its queue, and the processes `l` no longer wait. -/
theorem markDead_spares (h : Spares l (s.markDead dropped pid status) s') (q : Pid) :
    Option.Rel (fun a a' => (a'.ipc = if q ∈ l then IpcState.none else a.ipc) ∧
      (a'.senders = if q = pid then [] else a.senders) ∧
      (q ≠ pid → isZombie a'.state = true → isZombie a.state = true)) (s.proc q) (s'.proc q) := by
  have hdead : Option.Rel (fun a a' => a'.ipc = a.ipc ∧ (a'.senders = if q = pid then [] else a.senders) ∧
      (q ≠ pid → a'.state = a.state)) (s.proc q) ((s.markDead dropped pid status).proc q) := by
    rw [markDead_proc]
    by_cases e : q = pid
    all_goals
      simp only [e, if_true, if_false]
      cases s.proc _ with
      | none => exact .none
      | some a => exact .some ⟨rfl, rfl, fun hne => by first | rfl | exact absurd rfl hne⟩
  refine rel_trans hdead (h q) fun _ _ _ hab hbc => ⟨hab.1 ▸ hbc.2.1, hbc.1.trans hab.2.1, fun hne e => ?_⟩
  rw [← hab.2.2 hne]
  exact hbc.2.2 e

/-- `exit`: the senders of the dead process and those that wait for it by name are given an error. -/
theorem exitFound_unblocks (dropped : List Pid) (pid : Pid) (status : Int) (p : Proc) (hl : ∀ file, s.lockWaiters file = []) :
    ∃ stuck, Unblocks (p.senders ++ stuck) (s.markDead dropped pid status) (s.exitFound dropped pid status p) ∧
      ∀ q, q ∈ stuck ↔ ∃ a, s.proc q = some a ∧ q ∉ p.senders ∧ a.ipc.awaits pid = true := by
  have hfutex : ∀ s : Os, Unblocks [] s (if clears p.clearTid then s.wakeFutex p.clearTid else s) := by
    intro s
    split
    · exact .wakeFutex s _
    · exact .refl s
  have h1 : Unblocks p.senders (s.markDead dropped pid status) (p.senders.foldl (fun s q => s.unblock q)
      (if clears p.clearTid then (s.markDead dropped pid status).wakeFutex p.clearTid
        else s.markDead dropped pid status)) := by
    have := (hfutex (s.markDead dropped pid status)).trans (Unblocks.foldl Unblocks.unblock p.senders _)
    rwa [nil_append] at this
  generalize hs2 : p.senders.foldl (fun (s : Os) q => s.unblock q)
      (if clears p.clearTid then (s.markDead dropped pid status).wakeFutex p.clearTid
        else s.markDead dropped pid status) = s2 at h1
  refine ⟨s2.stuckWaiters pid, ?_, fun q => ?_⟩
  · have hmid : ∀ file, ((s2.stuckWaiters pid).foldl (fun s q => s.unblock q) s2).lockWaiters file = [] := by
      intro file
      rw [(Unblocks.foldl Unblocks.unblock (s2.stuckWaiters pid) s2).locks, h1.locks, Os.markDead,
        (enqueueAll_proc dropped _).2.2]
      exact hl file
    have h2 := h1.trans (Unblocks.foldl Unblocks.unblock (s2.stuckWaiters pid) s2)
    have h3 := (h2.then_nil (.releaseAllLocks pid hmid)).then_nil (.milds (exitTail_milds pid status p _))
    rw [exitFound_eq]
    unfold exitHead
    dsimp only
    rw [hs2]
    exact h3
  · unfold stuckWaiters
    rw [mem_filter, s2.procs.mem]
    have hrel := markDead_spares h1.each q
    change ((s2.proc q).isSome = true ∧ _) ↔ _
    revert hrel
    generalize s.proc q = a, s2.proc q = b
    intro hrel
    cases hrel with
    | none => simp
    | some hab =>
      simp only [Option.elim_some, Option.some.injEq, exists_eq_left']
      rw [hab.1]
      by_cases hq : q ∈ p.senders
      · simp [hq, IpcState.awaits]
      · simp [hq]

/-- Who blocks on a process is in its queue, or waits for it by name. -/
theorem blocksOn_iff : i.blocksOn pid = true ↔ i.target = some pid ∨ i.awaits pid = true := by
  cases i <;> simp [IpcState.blocksOn, IpcState.target, IpcState.awaits]

theorem target_of_awaits (h : i.awaits pid = true) : i.target = none := by
  cases i <;> first | rfl | cases h

theorem exit_peers (dropped : List Pid) (status : Int) (hs : PeerInv s) (hp : s.proc pid = some p) (ht : p.ipc.target = none)
    (hstop : ∀ q a, q ≠ pid → s.proc q = some a → a.ipc.blocksOn pid = true → ¬s.Runnable q → a.state = .stopped) :
    PeerInv (s.exitFound dropped pid status p) ∧ Released pid s (s.exitFound dropped pid status p) := by
  obtain ⟨stuck, hun, hstuck⟩ := exitFound_unblocks dropped pid status p hs.locks
  generalize s.exitFound dropped pid status p = s' at hun
  have hrel := markDead_spares hun.each
  have hall : ∀ q a, s.proc q = some a → a.ipc.blocksOn pid = true → q ∈ p.senders ++ stuck := by
    intro q a ha hb
    rw [mem_append]
    by_cases hq : q ∈ p.senders
    · exact .inl hq
    rcases blocksOn_iff.mp hb with h1 | h1
    · rw [← senders_of hp, hs.index.mem, target_of ha] at hq
      exact absurd h1 hq
    · exact .inr ((hstuck q).mpr ⟨a, ha, hq, h1⟩)
  have htarget : ∀ q, s'.target q = if q ∈ p.senders then none else s.target q := by
    intro q
    unfold Os.target
    rw [rel_elim (G := fun a => if q ∈ p.senders then none else a.ipc.target) (hrel q) (fun {a a'} ha h1 => ?_)]
    · cases s.proc q <;> simp
    simp only [h1.1, mem_append]
    by_cases hq : q ∈ p.senders
    · simp [hq, IpcState.target]
    by_cases hq' : q ∈ stuck
    · -- who is stuck waits by name
      obtain ⟨a1, ha1, -, haw⟩ := (hstuck q).mp hq'
      rw [ha] at ha1
      cases ha1
      rw [target_of_awaits haw, if_pos (.inr hq'), if_neg hq]
      rfl
    · simp [hq, hq']
  have hsenders : ∀ q, s'.senders q = if q = pid then [] else s.senders q := by
    intro q
    unfold Os.senders
    rw [rel_elim (hrel q) fun _ h1 => h1.2.1]
    cases s.proc q <;> simp
  refine ⟨⟨hs.index.clear (t := pid) ?_ (fun u hu => ?_) (fun q hq => ?_) (fun q hq => ?_), fun q a' ha' htq => ?_,
    fun file => ?_⟩, fun q hq hb => ?_, fun q hb => ?_⟩
  · rw [hsenders, if_pos rfl]
  · rw [hsenders, if_neg hu]
  · rw [senders_of hp] at hq
    rw [htarget, if_pos hq]
  · rw [senders_of hp] at hq
    rw [htarget, if_neg hq]
  · obtain ⟨a, ha, hipc, -, hz⟩ := rel_of_some (hrel q) ha'
    have hta : a.ipc.target ≠ none := by
      rw [hipc] at htq
      split at htq
      · exact absurd rfl htq
      · exact htq
    have hq : q ≠ pid := by
      rintro rfl
      rw [hp] at ha
      cases ha
      exact hta ht
    cases hz' : ProcState.isZombie a'.state with
    | false => rfl
    | true => exact absurd ((hs.live q a ha hta).symm.trans (hz hq hz')) Bool.false_ne_true
  · rw [hun.locks, markDead, (enqueueAll_proc dropped _).2.2]
    exact hs.locks file
  · obtain ⟨a, ha, hbl, hnot⟩ := hb
    have hst := hstop q a hq ha hbl hnot
    have ha1 : (s.markDead dropped pid status).proc q = some a := by rw [markDead_proc, if_neg hq, ha]
    exact hun.woken q (hall q a ha hbl) (.inr ⟨a, ha1, hst⟩) (by rw [ha1]; rfl)
  · obtain ⟨a', ha', hbl, -⟩ := hb
    obtain ⟨a, ha, hipc, -⟩ := rel_of_some (hrel q) ha'
    rw [hipc] at hbl
    split at hbl
    · cases hbl
    · rename_i hno
      exact hno (hall q a ha hbl)

end Exit

/-! ## Signals and states -/

section Signals
variable {s : Os} {pid : Pid} {p : Proc}

theorem wakeWithEintr_peers (hs : PeerInv s) : PeerInv (s.wakeWithEintr pid) := by
  unfold wakeWithEintr
  split
  · exact hs
  rename_i p hp
  split
  swap
  · exact hs
  split
  · -- the process leaves the queue that it is in
    rename_i t m r hi
    refine PeerInv.of_proc (s := (s.setProc t _).setProc pid _) ?_ (fun _ => rfl) rfl
    refine hs.quit hp (by rw [hi]; rfl) (fun _ => ⟨rfl, rfl⟩) (fun a ha => ⟨ha.filter _, fun r => ?_⟩) fun _ => ⟨rfl, rfl⟩
    simp [and_comm]
  · rename_i hi
    have htn : p.ipc.target = none := by
      cases hi' : p.ipc with
      | sending t m r => exact absurd hi' (hi t m r)
      | _ => rfl
    refine PeerInv.of_proc (inv (.setProc fun p' hp' => ?_) hs) (fun _ => rfl) rfl
    rw [hp] at hp'
    cases hp'
    exact ⟨rfl, htn.symm, nofun⟩

theorem post_peers {sig : Nat} (hs : PeerInv s) : PeerInv (s.post sig pid) := by
  unfold post
  have h1 : PeerInv (s.setProc pid fun p => { p with pendingSignals := p.pendingSignals ||| 1#32 <<< sig }) :=
    inv (.setProc fun _ _ => ⟨rfl, rfl, id⟩) hs
  dsimp only
  split
  · exact wakeWithEintr_peers h1
  · exact h1

theorem sysSetProcessState_peers {h : Nat} {cap : Bool} {target : Pid} {state : Nat} :
    SamePeers s (s.sysSetProcessState h cap target state) := by
  unfold sysSetProcessState
  split
  · exact .setA0 s _ _
  split
  · exact .setA0 s _ _
  refine .trans ?_ (.setA0 _ _ _)
  split
  · exact .milds (wakeStopped_milds target s)
  · exact .setProc fun _ _ => ⟨rfl, rfl, nofun⟩

end Signals

/-! ## Runs -/

theorem RvOp.step_peers {op : RvOp} (hs : PeerInv s) (hsafe : PeerOp.Safe s (.ipc op)) :
    (op.step s).elim True fun r => PeerInv r.1 := by
  cases op with
  | dispatch h =>
    have h1 : SamePeers s (s.dispatch h) := by
      refine ⟨.dispatch .refl .wake, ?_⟩
      unfold Os.dispatch
      dsimp only
      repeat' split
      all_goals rfl
    exact h1.inv hs
  | preempt h pc =>
    have h1 : SamePeers s (s.preempt h pc) := by
      refine ⟨.preempt .refl fun p => ?_, ?_⟩
      · unfold Proc.interrupted
        split
        · exact .refl p
        · exact ⟨rfl, rfl, id⟩
      · unfold Os.preempt
        split <;> rfl
    exact h1.inv hs
  | send h pc dest ptr body => exact viaCall_peers hs hsafe send_peers
  | receive h pc src ptr => exact viaCall_peers hs hsafe.1 fun hs hp ht _ => receive_peers hs hp ht hsafe.2
  | sendrec h pc dest ptr body => exact viaCall_peers hs hsafe sendrec_peers
  | irq pid n => exact kernelSendMsg_peers.inv hs

theorem PeerOp.wp_run {op : PeerOp} {Q : Unit → Os → Prop} {E X : Os → Prop} :
    op.run.wp Q E X s ↔ (op.step s).elim (X s) (Q ()) := by
  cases hs : op.step s with
  | none =>
    rw [Cmd.wp_of_eq (by unfold run; rw [hs])]
    exact Iff.rfl
  | some s' =>
    rw [Cmd.wp_of_eq (by unfold run; rw [hs])]
    exact Iff.rfl

theorem PeerOp.run_peers (op : PeerOp) (s : Os) (hs : PeerInv s) (hsafe : op.Safe s) :
    op.run.endsIn (fun s' => PeerInv s' ∧ op.Good s s') s := by
  refine wp_run.mpr ?_
  cases op with
  | ipc op =>
    have hr := RvOp.step_peers hs hsafe
    change ((op.step s).map Prod.fst).elim True _
    revert hr
    cases op.step s with
    | none => exact id
    | some r => exact fun hr => ⟨hr, hr.sendersOk⟩
  | exit dropped pid status =>
    change PeerInv (s.exit dropped pid status) ∧ _ ∧ _
    unfold Os.exit
    cases hp : s.proc pid with
    | none => exact ⟨hs, hs.sendersOk, nofun⟩
    | some p =>
      obtain ⟨ht, hstop⟩ := hsafe p hp
      obtain ⟨hinv, hrel⟩ := exit_peers dropped status hs hp ht hstop
      exact ⟨hinv, hinv.sendersOk, fun _ => hrel⟩
  | idle h =>
    have hinv : PeerInv (s.leave h) := hs.of_proc (fun _ => rfl) rfl
    exact ⟨hinv, hinv.sendersOk⟩
  | signal sig pid => exact ⟨post_peers hs, (post_peers hs).sendersOk⟩
  | setState h cap target state =>
    have hinv : PeerInv (s.sysSetProcessState h cap target state) := sysSetProcessState_peers.inv hs
    exact ⟨hinv, hinv.sendersOk⟩

/-- A kernel in which nobody sends and nobody waits for a record lock. -/
structure PeerStart (s : Os) : Prop where
  quiet : ∀ q p, s.proc q = some p → p.ipc = .none ∧ p.senders = []
  locks : ∀ file, s.lockWaiters file = []

theorem PeerStart.inv (h : PeerStart s) : PeerInv s where
  index := by
    have hs : ∀ t, s.senders t = [] := by
      intro t
      unfold Os.senders
      cases hp : s.proc t with
      | none => rfl
      | some p => exact (h.quiet t p hp).2
    have ht : ∀ q, s.target q = none := by
      intro q
      unfold Os.target
      cases hp : s.proc q with
      | none => rfl
      | some p =>
        change p.ipc.target = none
        rw [(h.quiet q p hp).1]
        rfl
    refine ⟨fun t => ?_, fun t q => ?_⟩
    · rw [hs]
      exact nodup_nil
    · rw [hs, ht]
      exact ⟨nofun, nofun⟩
  live q p hp ht := by
    rw [(h.quiet q p hp).1] at ht
    exact absurd rfl ht
  locks := h.locks

/-- In every run in which calls are made by live processes that are in no queue of senders, receives have valid
pointers, and a process ends only when it is in no such queue and all that wait for it are stopped, every exit
releases who waits for the process, and the queues of senders are in order throughout. -/
theorem peers_released {s : Os} (h : PeerStart s) (ops : List PeerOp)
    (hsafe : Along PeerOp.run (fun op s _ => op.Safe s) ops s) : Along PeerOp.run PeerOp.Good ops s :=
  Along.of_inv PeerInv PeerOp.run_peers h.inv hsafe

theorem irqExample_peers : PeerStart irqExample where
  quiet q p hp := by
    rw [(irqExample_proc hp).2]
    exact ⟨rfl, rfl⟩
  locks _ := rfl

/-- The first process waits to send to the second, which stops it and exits: the first one is let go. -/
theorem peers_released_stopped : Along PeerOp.run PeerOp.Good
    [.ipc (.dispatch 0), .ipc (.send 0 0x1000 2 0x100000000 ⟨0, 7, []⟩), .ipc (.dispatch 0), .setState 0 true 1 0,
      .exit [] 2 0, .idle 0] irqExample := by
  refine peers_released irqExample_peers _ ⟨trivial, ?_, trivial, trivial, ?_, trivial, trivial⟩
  · intro me hme p hp
    have h1 : me = 1 := (caller_eq hme).1
    subst h1
    cases hp
    exact ⟨rfl, rfl⟩
  · intro p hp
    cases hp
    refine ⟨rfl, fun q a hq ha _ _ => ?_⟩
    have hk : q ∈ ([1, 2] : List Pid) := Os.mem_keys_of ha
    have h1 : q = 1 := by simpa [hq] using hk
    subst h1
    cases ha
    rfl

/-- The first process waits to send to the second, which exits: the first one stays off the run queue. -/
theorem sender_left_behind : ∃ s, PeerStart s ∧ ¬Along PeerOp.run PeerOp.Good
    [.ipc (.dispatch 0), .ipc (.send 0 0x1000 2 0x100000000 ⟨0, 7, []⟩), .exit [] 2 0] s := by
  refine ⟨irqExample, irqExample_peers, fun h => ?_⟩
  have hrel := h.2.2.1.2 rfl
  have hmem := hrel.1 1 (by decide) ⟨_, rfl, rfl, ?_⟩
  · revert hmem
    decide
  · rintro (e | ⟨h, e⟩)
    · revert e
      decide
    · by_cases h0 : h = 0
      · subst h0
        revert e
        decide
      · change update (update (fun _ => (0 : Pid)) 0 1) 0 0 h = 1 at e
        rw [update_of_ne h0, update_of_ne h0] at e
        cases e

end OpenV.Sched
