import OpenV.Sched.Edits
import OpenV.Sched.Rendezvous

/- Interrupt messages: where each one that the kernel injects is, and who gets it.
   An injected message sits in the state word of its process or in the queue
   behind it until a receive returns it; the books below are kept by every step
   but those that drop the state word, return it as a reply, return it past the
   filter, or take it out of the queue before finding the pointer bad. -/
namespace OpenV.Sched

open Proc Event RvOp Os List

def irqSource : Pid := -2

def Event.injectedTo (p : Pid) : Event → Option Message
  | .injected q m => if q = p then some m else none
  | _ => none

/-- An interrupt message that a receive of `p` returned. -/
def Event.returnedTo (p : Pid) : Event → Option Message
  | .received q _ m => if q = p ∧ m.source = irqSource then some m else none
  | _ => none

/-- No interrupt message is given as a reply or to a receive whose filter is for another process. -/
def Event.Fit : Event → Prop
  | .received _ filter m => m.source = irqSource → accepts filter irqSource = true
  | .replied _ _ m => m.source ≠ irqSource
  | _ => True

/-- The event is not about an interrupt message. -/
def Event.Plain : Event → Prop
  | .received _ _ m => m.source ≠ irqSource
  | .replied _ _ m => m.source ≠ irqSource
  | .injected _ _ => False
  | .sent _ _ _ => True

/-- The interrupt message in the state word. -/
def IpcState.irq : IpcState → List Message
  | .messageAvailable m => if m.source = irqSource then [m] else []
  | _ => []

/-- The interrupt messages that a process has not been given yet. -/
def Proc.heldIrq (p : Proc) : List Message := p.ipc.irq ++ p.irqPending

def Os.heldIrq (s : Os) (pid : Pid) : List Message := (s.proc pid).elim [] Proc.heldIrq

/-- Every injected message was returned once by a receive that accepts it, or is still held. -/
structure IrqBooks (x : Hist) : Prop where
  once : ∀ p, (x.log.filterMap (Event.injectedTo p)).Perm (x.log.filterMap (Event.returnedTo p) ++ x.os.heldIrq p)
  fit : ∀ e ∈ x.log, e.Fit
  /-- no process sleeps in a receive that accepts what it holds -/
  awake : ∀ q p, x.os.proc q = some p → p.ipc.receives irqSource = true → p.heldIrq = []

/-- What the books rest on: interrupts have a source that is no process. -/
structure IrqInv (x : Hist) : Prop where
  books : IrqBooks x
  free : x.os.proc irqSource = none
  pending : ∀ q p, x.os.proc q = some p → ∀ m ∈ p.irqPending, m.source = irqSource
  sending : ∀ q p t m r, x.os.proc q = some p → p.ipc = .sending t m r → m.source ≠ irqSource

/-- A send that does not overwrite an interrupt message: there is none, or the send does not have to wait. -/
def SendSafe (dest : Pid) (ptr : Nat) (s : Os) (me : Pid) (p : Proc) : Prop :=
  ∀ t, s.proc dest = some t → dest ≠ me → isUserPointerValid messageSize ptr 1 = true →
    p.ipc.irq = [] ∨ t.ipc.receives me = true ∨ t.ipc.receivesReply me = true

/-- A receive that gives an interrupt message past no filter and loses none. -/
def ReceiveSafe (src : Pid) (ptr : Nat) (p : Proc) : Prop :=
  (isUserPointerValid messageSize ptr 1 = true → p.ipc.irq = [] ∨ accepts src irqSource = true) ∧
  (isUserPointerValid messageSize ptr 1 = false →
    (∃ m, p.ipc = .messageAvailable m) ∨ p.irqPending = [] ∨ accepts src irqSource = false)

/-- What a step needs: a process with an interrupt message in its state word makes no sendrec, no send that has to
wait, and no receive for another process; and a receive that finds a queued one has a valid pointer. -/
def RvOp.IrqSafe (s : Os) : RvOp → Prop
  | .send h pc dest ptr _ => ∀ me, s.caller h pc (.send dest ptr) = some me → ∀ p, s.proc me = some p →
      SendSafe dest ptr s me p
  | .receive h pc src ptr => ∀ me, s.caller h pc (.receive src ptr) = some me → ∀ p, s.proc me = some p →
      ReceiveSafe src ptr p
  | .sendrec h pc dest ptr _ => ∀ me, s.caller h pc (.sendrec dest ptr) = some me → ∀ p, s.proc me = some p →
      p.ipc.irq = []
  | _ => True

/-! ## Steps that leave the interrupt messages alone -/

/-- The process holds the same interrupt messages, and sends none. -/
structure IrqSame (p p' : Proc) : Prop where
  ipc : p'.ipc.irq = p.ipc.irq
  pending : p'.irqPending = p.irqPending
  sending : ∀ t m r, p'.ipc = .sending t m r → p.ipc = .sending t m r ∨ m.source ≠ irqSource
  awake : p'.ipc.receives irqSource = true → p.ipc.receives irqSource = true ∨ p.heldIrq = []

theorem IrqSame.heldIrq {p p' : Proc} (h : IrqSame p p') : p'.heldIrq = p.heldIrq := by
  rw [Proc.heldIrq, Proc.heldIrq, h.ipc, h.pending]

theorem IrqSame.refl (p : Proc) : IrqSame p p := ⟨rfl, rfl, fun _ _ _ h => .inl h, .inl⟩

theorem IrqSame.trans {p p' p'' : Proc} (h : IrqSame p p') (h' : IrqSame p' p'') : IrqSame p p'' where
  ipc := h'.ipc.trans h.ipc
  pending := h'.pending.trans h.pending
  sending t m r e := by
    rcases h'.sending t m r e with e' | e'
    · exact h.sending t m r e'
    · exact .inr e'
  awake e := by
    rcases h'.awake e with e' | e'
    · exact h.awake e'
    · exact .inr (h.heldIrq ▸ e')

/-- A change that is about neither. -/
theorem IrqSame.of_eq {p p' : Proc} (h : p'.ipc = p.ipc) (h' : p'.irqPending = p.irqPending) : IrqSame p p' :=
  ⟨by rw [h], h', fun _ _ _ e => .inl (h ▸ e), fun e => .inl (h ▸ e)⟩

section Same
variable {s s' s'' : Os} {k q : Pid} {f : Proc → Proc} {p : Proc} {x : Hist}

abbrev SameIrqs (s s' : Os) : Prop := s.Each IrqSame s'

theorem SameIrqs.refl (s : Os) : SameIrqs s s := Os.Each.refl IrqSame.refl s

theorem SameIrqs.trans (h : SameIrqs s s') (h' : SameIrqs s' s'') : SameIrqs s s'' :=
  Os.Each.trans (fun a b => a.trans b) h h'

theorem SameIrqs.of_proc (h : ∀ q, s'.proc q = s.proc q) : SameIrqs s s' := Os.Each.of_proc IrqSame.refl h

theorem SameIrqs.setProc (h : ∀ p, s.proc k = some p → IrqSame p (f p)) : SameIrqs s (s.setProc k f) :=
  Os.Each.setProc IrqSame.refl h

theorem SameIrqs.setA0 (s : Os) (v : Nat) : SameIrqs s (s.setA0 k v) := .setProc fun _ _ => .of_eq rfl rfl

theorem SameIrqs.sleepAgain (s : Os) (h : Nat) : SameIrqs s (s.sleepAgain h k) := by
  have hr : SameIrqs s (s.setProc k rewind) := .setProc fun _ _ => .of_eq rfl rfl
  exact hr.trans (.of_proc fun _ => rfl)

/-- The state word is replaced by one that holds no interrupt message, where there was none. -/
theorem SameIrqs.setIpc {ipc : IpcState} (hp : s.proc k = some p) (h0 : p.ipc.irq = []) (hi : ipc.irq = [])
    (hs : ∀ t m r, ipc = .sending t m r → m.source ≠ irqSource) (hr : ipc.receives irqSource = false) :
    SameIrqs s (s.setIpc k ipc) := by
  refine .setProc fun p' hp' => ?_
  rw [hp] at hp'
  cases hp'
  exact ⟨hi.trans h0.symm, rfl, fun t m r e => .inr (hs t m r e), fun e => absurd (hr.symm.trans e) Bool.false_ne_true⟩

variable {msg : Message} {es : List Event}

theorem SameIrqs.deposit (hp : s.proc k = some p) (h0 : p.ipc.irq = []) (hm : msg.source ≠ irqSource) :
    SameIrqs s (s.deposit k msg) := by
  have hi : SameIrqs s (s.setIpc k (.messageAvailable msg)) := .setIpc hp h0 (by simp [IpcState.irq, hm]) nofun rfl
  exact hi.trans (.of_proc fun _ => rfl)

theorem SameIrqs.queueUp {h : Nat} {dest : Pid} {r : Option Nat} (hp : s.proc k = some p) (h0 : p.ipc.irq = [])
    (hm : msg.source ≠ irqSource) : SameIrqs s (s.queueUp h k dest msg r) := by
  have hi : SameIrqs s (s.setIpc k (.sending dest msg r)) := by
    refine .setIpc hp h0 rfl (fun t m r e => ?_) rfl
    cases e
    exact hm
  have hq : SameIrqs (s.setIpc k (.sending dest msg r))
      ((s.setIpc k (.sending dest msg r)).setProc dest fun t => { t with senders := t.senders ++ [k] }) :=
    .setProc fun _ _ => .of_eq rfl rfl
  exact (hi.trans hq).trans (.sleepAgain _ h)

theorem SameIrqs.heldIrq (h : SameIrqs s s') (q : Pid) : s'.heldIrq q = s.heldIrq q := h.elim IrqSame.heldIrq [] q

theorem filterMap_plain_injected (h : ∀ e ∈ es, e.Plain) (p : Pid) : es.filterMap (injectedTo p) = [] := by
  refine filterMap_eq_nil_iff.mpr fun e he => ?_
  have hp := h e he
  cases e with
  | injected q m => exact hp.elim
  | _ => rfl

theorem filterMap_plain_returned (h : ∀ e ∈ es, e.Plain) (p : Pid) : es.filterMap (returnedTo p) = [] := by
  refine filterMap_eq_nil_iff.mpr fun e he => ?_
  have hp := h e he
  cases e with
  | received q f m => exact if_neg fun hc => hp hc.2
  | _ => rfl

theorem Event.Plain.fit {e : Event} (h : e.Plain) : e.Fit := by
  cases e with
  | received q f m => exact fun hm => absurd hm h
  | replied q d m => exact h
  | sent _ _ _ => trivial
  | injected _ _ => trivial

/-- The books after a step without interrupt messages. -/
theorem IrqBooks.plain (hx : IrqBooks x) (he : ∀ e ∈ es, e.Plain)
    (hheld : ∀ q, (x.os.heldIrq q).Perm (s'.heldIrq q))
    (hawake : ∀ q p, s'.proc q = some p → p.ipc.receives irqSource = true → p.heldIrq = []) :
    IrqBooks ⟨s', x.log ++ es⟩ where
  once q := by
    rw [filterMap_append, filterMap_append, filterMap_plain_injected he, filterMap_plain_returned he,
      append_nil, append_nil]
    exact (hx.once q).trans ((hheld q).append_left _)
  fit e hm := (mem_append.mp hm).elim (hx.fit e) fun h => (he e h).fit
  awake := hawake

/-- A step that leaves the interrupt messages alone keeps the invariant. -/
theorem IrqInv.same (hx : IrqInv x) (hs : SameIrqs x.os s') (he : ∀ e ∈ es, e.Plain) :
    IrqInv ⟨s', x.log ++ es⟩ where
  books := by
    refine hx.books.plain he (fun q => .of_eq (hs.heldIrq q).symm) fun q p' hp' hr => ?_
    obtain ⟨p, hp, h⟩ := hs.of_some hp'
    rw [h.heldIrq]
    rcases h.awake hr with e | e
    · exact hx.books.awake q p hp e
    · exact e
  free := by
    cases hp : s'.proc irqSource with
    | none => rfl
    | some p' =>
      obtain ⟨p, h, -⟩ := hs.of_some hp
      rw [hx.free] at h
      cases h
  pending q p' hp' m hm := by
    obtain ⟨p, hp, h⟩ := hs.of_some hp'
    rw [h.pending] at hm
    exact hx.pending q p hp m hm
  sending q p' t m r hp' e := by
    obtain ⟨p, hp, h⟩ := hs.of_some hp'
    rcases h.sending t m r e with e' | e'
    · exact hx.sending q p t m r hp e'
    · exact e'

theorem IrqInv.same_os (hx : IrqInv x) (hs : SameIrqs x.os s') : IrqInv ⟨s', x.log⟩ := by
  have h : IrqInv ⟨s', x.log ++ []⟩ := hx.same hs (by simp)
  rw [append_nil] at h
  exact h

theorem IrqInv.keeps {C : Prop} (hx : IrqInv x) (hs : SameIrqs x.os s') (he : ∀ e ∈ es, e.Plain) (hC : C) :
    KeepsIff IrqInv IrqBooks C ⟨s', x.log ++ es⟩ :=
  .of (hx.same hs he) hC

end Same

/-! ## The steps -/

section Steps
variable {x : Hist} {h pc : Nat} {me dest src : Pid} {ptr : Nat} {body : Message} {p : Proc}

theorem RvOp.wp_run {op : RvOp} {Q : Unit → Hist → Prop} {E X : Hist → Prop} :
    op.run.wp Q E X x ↔ (op.step x.os).elim (X x) fun r => Q () ⟨r.1, x.log ++ r.2⟩ := by
  cases hs : op.step x.os with
  | none =>
    rw [Cmd.wp_of_eq (by unfold run; rw [hs])]
    exact Iff.rfl
  | some r =>
    rw [Cmd.wp_of_eq (by unfold run; rw [hs])]
    exact Iff.rfl

variable {s s' : Os} {call : Call} {i : IpcState} {q : Pid} {f : Proc → Proc} {m : Message}

theorem caller_eq (hc : s.caller h pc call = some me) :
    me = s.current h ∧ ∃ p, s.proc me = some p ∧ (p.again = none ∨ p.again = some (pc, call)) := by
  obtain ⟨p, hp, hif⟩ := Option.bind_eq_some_iff.mp hc
  split at hif
  · rename_i ha
    cases hif
    exact ⟨rfl, p, hp, ha⟩
  · cases hif

theorem irq_of_ne (h : ∀ m, i ≠ .messageAvailable m) : i.irq = [] := by
  cases i with
  | messageAvailable m => exact absurd rfl (h m)
  | _ => rfl

theorem irq_of_receives (h : i.receives q = true ∨ i.receivesReply q = true) : i.irq = [] := by
  cases i <;> first | rfl | simp [IpcState.receives, IpcState.receivesReply] at h

/-- Losing what a process holds cannot balance. -/
theorem not_books_of_lost {es : List Event} (hx : IrqInv x) (me : Pid) (he : ∀ e ∈ es, e.Plain)
    (hlen : (s'.heldIrq me).length < (x.os.heldIrq me).length) : ¬IrqBooks ⟨s', x.log ++ es⟩ := by
  intro hb
  have h1 := (hx.books.once me).length_eq
  have h2 := (hb.once me).length_eq
  rw [filterMap_append, filterMap_append, filterMap_plain_injected he, filterMap_plain_returned he,
    append_nil, append_nil] at h2
  simp only [length_append] at h1 h2
  omega

theorem send_irq (hx : IrqInv x) (hp : x.os.proc me = some p) (hme : me ≠ irqSource) :
    (ipcSend h me dest ptr body x.os).elim True fun r =>
      KeepsIff IrqInv IrqBooks (SendSafe dest ptr x.os me p) ⟨r.1, x.log ++ r.2⟩ := by
  unfold ipcSend
  rw [hp]
  dsimp only
  split
  · rename_i hsc
    have h0 : p.ipc.irq = [] := by rw [hsc]; rfl
    exact hx.keeps (.trans (.setIpc hp h0 rfl (by nofun) rfl) (.setA0 _ _)) (by simp) fun _ _ _ _ => .inl h0
  split
  · rename_i hv
    refine hx.keeps (.setA0 _ _) (by simp) fun _ _ _ hv' => ?_
    rw [hv] at hv'
    exact Bool.noConfusion hv'
  rename_i hv
  have hv' : isUserPointerValid messageSize ptr 1 = true := Bool.ne_false_iff.mp hv
  cases ht : x.os.proc dest with
  | none =>
    refine hx.keeps (.setA0 _ _) (by simp) fun t ht' => ?_
    rw [ht] at ht'
    cases ht'
  | some t =>
    dsimp only
    split
    · rename_i hr
      have hr' := Bool.or_eq_true_iff.mp hr
      refine hx.keeps (.trans (.deposit ht (irq_of_receives hr') hme) (.setA0 _ _)) (by simp [Event.Plain])
        fun t' ht' _ _ => .inr ?_
      rw [ht] at ht'
      cases ht'
      exact hr'
    · rename_i hr
      split
      · trivial
      · rename_i hne
        refine ⟨fun hC => ?_, fun hb t' ht' _ _ => ?_⟩
        · have h0 : p.ipc.irq = [] := by
            rcases hC t ht hne hv' with e | e
            · exact e
            · exact absurd (Bool.or_eq_true_iff.mpr e) hr
          exact hx.same (.queueUp hp h0 hme) (by simp [Event.Plain])
        · -- the state word is overwritten with what it held
          rw [ht] at ht'
          cases ht'
          by_contra hno
          refine not_books_of_lost hx me (by simp [Event.Plain]) ?_ hb
          have hirq : p.ipc.irq ≠ [] := fun e => hno (.inl e)
          have hold : x.os.heldIrq me = p.ipc.irq ++ p.irqPending := by
            rw [Os.heldIrq, hp]
            rfl
          have hnew : (x.os.queueUp h me dest { body with source := me } none).heldIrq me = p.irqPending := by
            simp only [Os.heldIrq, Os.queueUp, Os.sleepAgain, Os.setIpc, Os.proc_leave, Os.proc_setProc_self,
              proc_setProc_of_ne (Ne.symm hne), hp, Option.map_some]
            rfl
          rw [hold, hnew, length_append]
          have := length_pos_iff.mpr hirq
          omega

/-- Only one process changed, and it does not sleep over what it holds. -/
theorem awake_setProc (hx : IrqInv x) (hp : x.os.proc me = some p)
    (hf : (f p).ipc.receives irqSource = true → (f p).heldIrq = []) (q : Pid) (p' : Proc)
    (hp' : (x.os.setProc me f).proc q = some p') (hr : p'.ipc.receives irqSource = true) : p'.heldIrq = [] := by
  refine forall_setProc (fun p0 hp0 => ?_) (fun q p _ => hx.books.awake q p) q p' hp' hr
  rw [hp] at hp0
  cases hp0
  exact hf

/-- The books after a receive returned an interrupt message that was held. -/
theorem IrqBooks.returned (hx : IrqBooks x) (hm : m.source = irqSource) (hfit : accepts src irqSource = true)
    (hme : (x.os.heldIrq me).Perm (m :: s'.heldIrq me)) (hother : ∀ q, q ≠ me → s'.heldIrq q = x.os.heldIrq q)
    (hawake : ∀ q p, s'.proc q = some p → p.ipc.receives irqSource = true → p.heldIrq = []) :
    IrqBooks ⟨s', x.log ++ [.received me src m]⟩ where
  once q := by
    have h1 := hx.once q
    rw [filterMap_append, filterMap_append, append_assoc]
    by_cases hq : q = me
    · subst hq
      have hr : [received q src m].filterMap (returnedTo q) = [m] := by simp [returnedTo, hm]
      rw [hr]
      have hi : [received q src m].filterMap (injectedTo q) = [] := rfl
      rw [hi, append_nil]
      exact h1.trans (hme.append_left _)
    · have hr : [received me src m].filterMap (returnedTo q) = [] := by
        simp [returnedTo, Ne.symm hq]
      rw [hr, hother q hq]
      have hi : [received me src m].filterMap (injectedTo q) = [] := rfl
      rw [hi, append_nil]
      exact h1
  fit e he := by
    rcases mem_append.mp he with h | h
    · exact hx.fit e h
    · rw [mem_singleton.mp h]
      exact fun _ => hfit
  awake := hawake

/-- A step that changes what one process holds: the structural part of the invariant. -/
theorem IrqInv.setProc {log : List Event} (hx : IrqInv x) (hp : x.os.proc me = some p)
    (hpend : ∀ m ∈ (f p).irqPending, m.source = irqSource)
    (hsend : ∀ t m r, (f p).ipc = .sending t m r → m.source ≠ irqSource) (hb : IrqBooks ⟨x.os.setProc me f, log⟩) :
    IrqInv ⟨x.os.setProc me f, log⟩ where
  books := hb
  free := by
    have hne : irqSource ≠ me := by
      intro e
      rw [← e, hx.free] at hp
      cases hp
    rw [proc_setProc_of_ne hne]
    exact hx.free
  pending := by
    refine forall_setProc (fun p0 hp0 => ?_) fun q p _ => hx.pending q p
    rw [hp] at hp0
    cases hp0
    exact hpend
  sending q p' t m r := by
    refine forall_setProc (fun p0 hp0 => ?_)
      (fun q p _ => hx.sending q p t m r) q p'
    rw [hp] at hp0
    cases hp0
    exact hsend t m r

theorem heldIrq_of (hp : s.proc me = some p) : s.heldIrq me = p.heldIrq := by
  rw [Os.heldIrq, hp]
  rfl

theorem heldIrq_setProc (hp : s.proc me = some p) : (s.setProc me f).heldIrq me = (f p).heldIrq := by
  rw [Os.heldIrq, Os.proc_setProc_self, hp]
  rfl

theorem heldIrq_setProc_of_ne (hq : q ≠ me) : (s.setProc me f).heldIrq q = s.heldIrq q := by
  rw [Os.heldIrq, Os.proc_setProc_of_ne hq]
  rfl

/-- The state word is given to the caller and refilled from the queue. -/
theorem takeMessage_irq (hx : IrqInv x) (hp : x.os.proc me = some p) (hm : p.ipc = .messageAvailable m) :
    (m.source ≠ irqSource ∨ accepts src irqSource = true) →
      IrqInv ⟨x.os.takeMessage me, x.log ++ [.received me src m]⟩ := by
  intro hfit
  have hq := hx.pending me p hp
  have hst : ∀ f : Proc → Proc, (f p).irqPending ⊆ p.irqPending → (∀ t m r, (f p).ipc ≠ .sending t m r) →
      (f p).ipc.receives irqSource = false →
      (p.heldIrq).Perm ((if m.source = irqSource then [m] else []) ++ (f p).heldIrq) →
      IrqInv ⟨x.os.setProc me f, x.log ++ [.received me src m]⟩ := by
    intro f hsub hs hr hperm
    have hawake := awake_setProc hx hp fun e => absurd (hr.symm.trans e) Bool.false_ne_true
    refine hx.setProc hp (fun m hm => hq m (hsub hm)) (fun t m r e => absurd e (hs t m r)) ?_
    by_cases hi : m.source = irqSource
    · rw [if_pos hi] at hperm
      refine hx.books.returned hi (hfit.resolve_left (not_not_intro hi)) ?_ (fun q hq => heldIrq_setProc_of_ne hq)
        hawake
      rw [heldIrq_of hp, heldIrq_setProc hp]
      exact hperm
    · rw [if_neg hi, nil_append] at hperm
      have hpl : ∀ e ∈ [received me src m], e.Plain := by
        intro e he
        rw [mem_singleton.mp he]
        exact hi
      refine hx.books.plain hpl (fun q => ?_) hawake
      by_cases hqm : q = me
      · rw [hqm, heldIrq_of hp, heldIrq_setProc hp]
        exact hperm
      · rw [heldIrq_setProc_of_ne hqm]
  refine hst _ ?_ ?_ ?_ ?_
  · cases p.irqPending with
    | nil => exact List.Subset.refl _
    | cons n rest => exact subset_cons_self n rest
  · intro t m r
    cases p.irqPending with
    | nil => exact nofun
    | cons n rest => exact nofun
  · cases p.irqPending with
    | nil => rfl
    | cons n rest => rfl
  · cases hpd : p.irqPending with
    | nil => simp [Proc.heldIrq, hm, hpd, IpcState.irq]
    | cons n rest =>
      have hn : n.source = irqSource := hq n (by rw [hpd]; exact .head _)
      simp [Proc.heldIrq, hm, hpd, IpcState.irq, hn]

theorem SameIrqs.handOver {sender : Pid} {q : Proc} {t : Pid} {r : Option Nat} (hq : s.proc sender = some q)
    (hs : q.ipc = .sending t m r) (replyPtr : Option Nat) : SameIrqs s (s.handOver sender me replyPtr) := by
  have h0 : q.ipc.irq = [] := by
    rw [hs]
    rfl
  cases replyPtr with
  | some r => exact .setIpc hq h0 rfl nofun rfl
  | none =>
    have hi : SameIrqs s (s.setIpc sender .sendComplete) := .setIpc hq h0 rfl nofun rfl
    exact hi.trans (.of_proc fun _ => rfl)

section
variable (hx : IrqInv x) (hp : x.os.proc me = some p)
include hx hp

theorem receiveQueued_irq (h0 : p.ipc.irq = []) (hnone : accepts src irqSource = true → p.irqPending = []) :
    (receiveQueued h me src ptr p x.os).elim True fun r => IrqInv ⟨r.1, x.log ++ r.2⟩ := by
  unfold receiveQueued
  split
  · have hi : SameIrqs x.os (x.os.setIpc me (.receiving src ptr)) := by
      refine .setProc fun p' hp' => ?_
      rw [hp] at hp'
      cases hp'
      refine ⟨h0.symm, rfl, fun _ _ _ e => (nomatch e), fun e => .inr ?_⟩
      rw [Proc.heldIrq, h0, hnone e]
      rfl
    exact hx.same (hi.trans (.sleepAgain _ h)) (by simp)
  rename_i sender _
  have hq : SameIrqs x.os (x.os.setProc me fun p => { p with senders := p.senders.erase sender }) :=
    .setProc fun _ _ => .of_eq rfl rfl
  have hx' : IrqInv ⟨_, x.log ++ []⟩ := hx.same hq (by simp)
  dsimp only
  split
  · trivial
  rename_i q hs
  split
  · rename_i t m r hi
    split
    · exact hx.same (hq.trans (.setA0 _ _)) (by simp)
    · refine hx.same ((hq.trans (.handOver hs hi _)).trans (.setA0 _ _)) fun e he => ?_
      rw [mem_singleton.mp he]
      exact hx'.sending sender q t m r hs hi
  · exact hx.same (hq.trans (.setA0 _ _)) (by simp)

theorem receive_irq : (ipcReceive h me src ptr x.os).elim True fun r =>
      KeepsIff IrqInv IrqBooks (ReceiveSafe src ptr p) ⟨r.1, x.log ++ r.2⟩ := by
  unfold ipcReceive
  rw [hp]
  dsimp only
  split
  · rename_i m hm
    split
    · rename_i hv
      exact hx.keeps (.setA0 _ _) (by simp) ⟨fun hv' => absurd (hv.symm.trans hv') Bool.false_ne_true,
        fun _ => .inl ⟨m, hm⟩⟩
    · rename_i hv
      have hv' := Bool.ne_false_iff.mp hv
      have hirq : p.ipc.irq = [] ↔ m.source ≠ irqSource := by
        rw [hm]
        simp [IpcState.irq]
      refine ⟨fun hC => ?_, fun hb => ⟨fun _ => ?_, fun hf => absurd hf hv⟩⟩
      · have ht := takeMessage_irq hx hp hm ((hC.1 hv').imp_left hirq.mp)
        exact ht.same_os (.setA0 _ _)
      · by_cases hi : m.source = irqSource
        · exact .inr (hb.fit (.received me src m) (by simp) hi)
        · exact .inl (hirq.mpr hi)
  · rename_i hm
    have h0 : p.ipc.irq = [] := irq_of_ne hm
    split
    · rename_i m hf
      have hmem : m ∈ p.irqPending := mem_of_find?_eq_some hf
      have hsrc : m.source = irqSource := hx.pending me p hp m hmem
      have hacc : accepts src irqSource = true := by
        rw [← hsrc]
        exact find?_some (p := fun m : Message => accepts src m.source) hf
      have hheld : (x.os.heldIrq me).Perm
          (m :: (x.os.setProc me fun p => { p with irqPending := p.irqPending.erase m }).heldIrq me) := by
        rw [heldIrq_of hp, heldIrq_setProc hp]
        simp only [Proc.heldIrq, h0, nil_append]
        exact perm_cons_erase hmem
      split
      · -- the message is gone without having been returned
        rename_i hv
        refine ⟨fun hC => ?_, fun hb => ?_⟩
        · rcases hC.2 hv with ⟨m', hm'⟩ | he | ha
          · exact (hm m' hm').elim
          · rw [he] at hmem
            cases hmem
          · exact absurd (ha.symm.trans hacc) Bool.false_ne_true
        · refine absurd hb (not_books_of_lost hx me (by simp) ?_)
          have hlen := hheld.length_eq
          have hsame := (SameIrqs.setA0 (k := me) (x.os.setProc me fun p =>
            { p with irqPending := p.irqPending.erase m }) usizeMax).heldIrq me
          rw [hsame, hlen, length_cons]
          exact Nat.lt_succ_self _
      · rename_i hv
        refine .of ?_ ⟨fun _ => .inl h0, fun hf => absurd hf hv⟩
        have ht : IrqInv ⟨x.os.setProc me fun p => { p with irqPending := p.irqPending.erase m },
            x.log ++ [.received me src m]⟩ := by
          refine hx.setProc hp (fun m' hm' => hx.pending me p hp m' (mem_of_mem_erase hm'))
            (fun t m r e => hx.sending me p t m r hp e) ?_
          refine hx.books.returned hsrc hacc hheld (fun q hq => heldIrq_setProc_of_ne hq)
            (awake_setProc hx hp fun e => ?_)
          -- a process that sleeps in such a receive holds nothing
          have hnil := hx.books.awake me p hp e
          rw [Proc.heldIrq, h0, nil_append] at hnil
          rw [hnil] at hmem
          cases hmem
        exact ht.same_os (.setA0 _ _)
    · rename_i hf
      have hnone : accepts src irqSource = true → p.irqPending = [] := by
        intro hacc
        refine eq_nil_iff_forall_not_mem.mpr fun m hmem => find?_eq_none.mp hf m hmem ?_
        rw [hx.pending me p hp m hmem]
        exact hacc
      have hC : ReceiveSafe src ptr p := by
        refine ⟨fun _ => .inl h0, fun _ => .inr ?_⟩
        cases hacc : accepts src irqSource with
        | false => exact .inr rfl
        | true => exact .inl (hnone hacc)
      have hq : (receiveQueued h me src ptr p x.os).elim True fun r => IrqInv ⟨r.1, x.log ++ r.2⟩ :=
        receiveQueued_irq hx hp h0 hnone
      revert hq
      cases receiveQueued h me src ptr p x.os with
      | none => exact fun _ => trivial
      | some r => exact fun hr => .of hr hC

theorem sendrec_irq (hme : me ≠ irqSource) : (ipcSendrec h me dest ptr body x.os).elim True fun r =>
      KeepsIff IrqInv IrqBooks (p.ipc.irq = []) ⟨r.1, x.log ++ r.2⟩ := by
  unfold ipcSendrec
  rw [hp]
  dsimp only
  split
  · rename_i m hm
    have hirq : p.ipc.irq = [] ↔ m.source ≠ irqSource := by
      rw [hm]
      simp [IpcState.irq]
    refine ⟨fun h0 => ?_, fun hb => ?_⟩
    · refine hx.same (.trans (.setIpc hp h0 rfl (by nofun) rfl) (.setA0 _ _)) fun e he => ?_
      rw [mem_singleton.mp he]
      exact hirq.mp h0
    · exact hirq.mpr (hb.fit (.replied me dest m) (by simp))
  · rename_i hm
    exact hx.keeps (.sleepAgain _ h) (by simp) (by rw [hm]; rfl)
  · rename_i hm
    have h0 : p.ipc.irq = [] := by rw [hm]; rfl
    split
    · exact hx.keeps (.setA0 _ _) (by simp) h0
    · rename_i t ht
      split
      · trivial
      · rename_i hne
        split
        · rename_i hr
          have hd : SameIrqs x.os (x.os.deposit dest { body with source := me }) :=
            .deposit ht (irq_of_receives (.inl hr)) hme
          refine hx.keeps ((hd.trans (.setIpc ?_ h0 rfl (by nofun) rfl)).trans (.sleepAgain _ h)) (by simp [Event.Plain]) h0
          rw [deposit, proc_enqueue, proc_setProc_of_ne (Ne.symm hne), hp]
        · exact hx.keeps (.queueUp hp h0 hme) (by simp [Event.Plain]) h0
  · rename_i hm _ _
    have h0 : p.ipc.irq = [] := irq_of_ne hm
    exact hx.keeps (.trans (.setIpc hp h0 rfl (by nofun) rfl) (.setA0 _ _)) (by simp) h0

/-- The books after an interrupt. -/
theorem IrqInv.injected {f : Proc → Proc} {m : Message} (hm : m.source = irqSource)
    (hpend : ∀ n ∈ (f p).irqPending, n ∈ p.irqPending ∨ n = m)
    (hsend : ∀ t n r, (f p).ipc = .sending t n r → p.ipc = .sending t n r)
    (hheld : (f p).heldIrq.Perm (m :: p.heldIrq)) (hr : (f p).ipc.receives irqSource = false) :
    IrqInv ⟨x.os.setProc me f, x.log ++ [.injected me m]⟩ := by
  refine hx.setProc hp (fun n hn => ?_) (fun t n r e => hx.sending me p t n r hp (hsend t n r e)) ⟨fun q => ?_, ?_,
    awake_setProc hx hp fun e => absurd (hr.symm.trans e) Bool.false_ne_true⟩
  · rcases hpend n hn with h | h
    · exact hx.pending me p hp n h
    · exact h ▸ hm
  · have hr : [Event.injected me m].filterMap (Event.returnedTo q) = [] := rfl
    rw [filterMap_append, filterMap_append, hr, append_nil]
    by_cases hq : q = me
    · subst hq
      have hi : [injected q m].filterMap (injectedTo q) = [m] := by simp [injectedTo]
      rw [hi, heldIrq_setProc hp]
      have h1 := hx.books.once q
      rw [heldIrq_of hp] at h1
      calc (x.log.filterMap (injectedTo q) ++ [m]).Perm
            (m :: x.log.filterMap (injectedTo q)) := perm_append_singleton _ _
        _ |>.Perm (m :: (x.log.filterMap (returnedTo q) ++ p.heldIrq)) := h1.cons m
        _ |>.Perm (x.log.filterMap (returnedTo q) ++ m :: p.heldIrq) := perm_middle.symm
        _ |>.Perm (x.log.filterMap (returnedTo q) ++ (f p).heldIrq) := hheld.symm.append_left _
    · have hi : [Event.injected me m].filterMap (Event.injectedTo q) = [] := by simp [Event.injectedTo, Ne.symm hq]
      rw [hi, append_nil, heldIrq_setProc_of_ne hq]
      exact hx.books.once q
  · intro e he
    rcases mem_append.mp he with h | h
    · exact hx.books.fit e h
    · rw [mem_singleton.mp h]
      trivial

end

theorem kernelSendMsg_irq {n : Nat} (hx : IrqInv x) : IrqInv ⟨x.os.kernelSendMsg me (irqMessage n),
      x.log ++ if (x.os.proc me).isSome then [.injected me (irqMessage n)] else []⟩ := by
  unfold kernelSendMsg
  cases hp : x.os.proc me with
  | none => exact hx.same (.refl _) (by simp)
  | some p =>
    simp only
    split
    · rename_i hr
      refine IrqInv.same_os (x := ⟨_, _⟩) (hx.injected
        (f := fun t => { t with ipc := .messageAvailable (irqMessage n) }) hp rfl
        (fun _ h => .inl h) nofun ?_ rfl) (.of_proc fun _ => rfl)
      simp only [Proc.heldIrq, irq_of_receives (.inl hr)]
      exact .refl _
    split
    · rename_i hn
      refine hx.injected hp rfl (fun _ h => .inl h) nofun ?_ rfl
      simp only [Proc.heldIrq, hn]
      exact .refl _
    · rename_i hr _
      refine hx.injected hp rfl (fun m h => ?_) (fun _ _ _ e => e) ?_ (Bool.eq_false_iff.mpr hr)
      · rcases mem_append.mp h with h | h
        · exact .inl h
        · exact .inr (mem_singleton.mp h)
      · simp only [Proc.heldIrq, ← append_assoc]
        exact perm_append_singleton _ _

theorem Os.Each.preempt {R : Proc → Proc → Prop} (hr : ∀ p, R p p) (hi : ∀ p, R p (p.interrupted pc)) :
    s.Each R (s.preempt h pc) := by
  unfold Os.preempt
  split
  · exact Os.Each.refl hr s
  · intro q
    exact Os.Each.setProc hr (fun p _ => hi p) q

theorem IrqSame.interrupted (p : Proc) : IrqSame p (p.interrupted pc) := by
  unfold Proc.interrupted
  split
  · exact .refl p
  · exact .of_eq rfl rfl

/-- A call: its condition is about the caller as it was before it entered the kernel. -/
theorem viaCall_irq {f : Pid → Os → Option (Os × List Event)} {C : Os → Pid → Proc → Prop} (hx : IrqInv x)
    (hC : ∀ me p, C (x.os.setProc me (enter pc call)) me (p.enter pc call) ↔ C x.os me p)
    (hf : ∀ {s me p}, IrqInv ⟨s, x.log⟩ → s.proc me = some p → me ≠ irqSource →
      (f me s).elim True fun r => KeepsIff IrqInv IrqBooks (C s me p) ⟨r.1, x.log ++ r.2⟩) :
    (viaCall h pc call f x.os).elim True fun r =>
      KeepsIff IrqInv IrqBooks (∀ me, x.os.caller h pc call = some me → ∀ p, x.os.proc me = some p → C x.os me p)
        ⟨r.1, x.log ++ r.2⟩ := by
  unfold viaCall
  cases hc : x.os.caller h pc call with
  | none =>
    refine .of (hx.same (.refl _) (by simp)) ?_
    intro me e
    cases e
  | some me =>
    obtain ⟨-, p, hp, -⟩ := caller_eq hc
    have hne : me ≠ irqSource := by
      intro e
      rw [e, hx.free] at hp
      cases hp
    have hx' : IrqInv ⟨x.os.setProc me (enter pc call), x.log⟩ :=
      hx.same_os (.setProc fun _ _ => .of_eq rfl rfl)
    have hp' : (x.os.setProc me (enter pc call)).proc me = some (p.enter pc call) := by
      rw [proc_setProc_self, hp]
      rfl
    have hr := hf hx' hp' hne
    dsimp only [Option.elim_some]
    revert hr
    cases f me (x.os.setProc me (enter pc call)) with
    | none => exact id
    | some r =>
      intro hr
      refine ⟨fun h1 => hr.1 ((hC me p).mpr (h1 me rfl p hp)), fun hb me' e p' hp'' => ?_⟩
      cases e
      rw [hp] at hp''
      cases hp''
      exact (hC me p).mp (hr.2 hb)

theorem RvOp.run_irq (op : RvOp) (x : Hist) (hx : IrqInv x) :
    op.run.endsIn (KeepsIff IrqInv IrqBooks (op.IrqSafe x.os)) x := by
  refine wp_run.mpr ?_
  cases op with
  | dispatch h => exact hx.keeps (.dispatch .refl fun _ => .of_eq rfl rfl) (by simp) trivial
  | preempt h pc => exact hx.keeps (.preempt .refl .interrupted) (by simp) trivial
  | send h pc dest ptr body =>
    refine viaCall_irq hx (fun me p => ?_) send_irq
    -- another process is as it was
    refine forall_congr' fun t => ?_
    rw [proc_setProc]
    split
    · rename_i e
      exact ⟨fun _ _ hne => absurd e hne, fun _ _ hne => absurd e hne⟩
    · exact Iff.rfl
  | receive h pc src ptr =>
    exact viaCall_irq (C := fun _ _ => ReceiveSafe src ptr) hx (fun _ _ => Iff.rfl) fun hx hp _ => receive_irq hx hp
  | sendrec h pc dest ptr body =>
    exact viaCall_irq (C := fun _ _ p => p.ipc.irq = []) hx (fun _ _ => Iff.rfl) fun hx hp hne =>
      sendrec_irq hx hp hne
  | irq pid n => exact .of (kernelSendMsg_irq hx) trivial

end Steps

/-- A kernel in which no message is under way and no process has the number of the interrupts. -/
structure IrqStart (s : Os) : Prop where
  free : s.proc irqSource = none
  quiet : ∀ q p, s.proc q = some p → p.ipc = .none ∧ p.irqPending = []

theorem IrqStart.inv {s : Os} (h : IrqStart s) : IrqInv ⟨s, []⟩ where
  books := by
    refine ⟨fun q => ?_, nofun, fun q p hp hr => ?_⟩
    swap
    · rw [(h.quiet q p hp).1] at hr
      cases hr
    have hh : s.heldIrq q = [] := by
      unfold Os.heldIrq
      cases hp : s.proc q with
      | none => rfl
      | some p =>
        obtain ⟨h1, h2⟩ := h.quiet q p hp
        simp only [Option.elim_some, Proc.heldIrq, h1, h2]
        rfl
    rw [hh]
    exact .refl _
  free := h.free
  pending q p hp m hm := by
    rw [(h.quiet q p hp).2] at hm
    cases hm
  sending q p t m r hp e := by
    rw [(h.quiet q p hp).1] at e
    cases e

/-- From a quiet start, all interrupt messages are accounted for in every state reached exactly in the runs in which
no process with one in its state word makes a sendrec, a send that has to wait, or a receive for another process, and
no receive finds one in the queue with a bad pointer. -/
theorem irq_delivered_iff {s : Os} (h : IrqStart s) (ops : List RvOp) :
    Along run (fun op x _ => op.IrqSafe x.os) ops ⟨s, []⟩ ↔ Along run (fun _ _ x => IrqBooks x) ops ⟨s, []⟩ :=
  along_iff_of (fun _ hx => hx.books) run_irq h.inv

/-- A driver process that waits for its interrupts, and another. -/
def irqExample : Os := .start [(1, {}), (2, {})]

theorem irqExample_proc {q : Pid} {p : Proc} (hp : irqExample.proc q = some p) : (q = 1 ∨ q = 2) ∧ p = {} := by
  have hk : q ∈ ([1, 2] : List Pid) := mem_keys_of hp
  have h12 : q = 1 ∨ q = 2 := by simpa using hk
  refine ⟨h12, ?_⟩
  rcases h12 with rfl | rfl <;> cases hp <;> rfl

theorem irqExample_start : IrqStart irqExample where
  free := rfl
  quiet q p hp := by
    rw [(irqExample_proc hp).2]
    exact ⟨rfl, rfl⟩

/-- The first process takes an interrupt that came while it was busy. -/
def irqExampleRun : List RvOp := [.dispatch 0, .irq 1 5, .receive 0 0x1000 (-1) 0x100000000]

theorem irq_delivered_example : Along run (fun _ _ x => IrqBooks x) irqExampleRun ⟨irqExample, []⟩ := by
  refine (irq_delivered_iff irqExample_start _).mp ⟨trivial, trivial, ?_, trivial⟩
  intro me hme p hp
  have h1 : me = 1 := by
    obtain ⟨h, -⟩ := caller_eq hme
    exact h
  subst h1
  cases hp
  exact ⟨fun _ => .inr rfl, fun _ => .inl ⟨_, rfl⟩⟩

/-- The first process asks the second for something when an interrupt comes: the sendrec takes the interrupt message
for the reply, and the request is never sent. -/
theorem irq_as_reply : ∃ s, IrqStart s ∧ ¬Along run (fun _ _ x => IrqBooks x)
      [.dispatch 0, .irq 1 5, .sendrec 0 0x1000 2 0x100000000 ⟨0, 7, []⟩] ⟨s, []⟩ := by
  refine ⟨irqExample, irqExample_start, fun h => ?_⟩
  have hfit := h.2.2.1.fit (.replied 1 2 (irqMessage 5)) (by decide)
  exact hfit rfl

end OpenV.Sched
