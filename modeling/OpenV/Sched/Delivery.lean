import OpenV.Sched.Irq
import OpenV.Sched.NetSteps
import OpenV.Sched.Queue

/- The calls of the kernel are steps of the rendezvous protocol: `netOf` forgets
   everything but the state words, the calls to be made again and the queues, and
   `RvOp.sim` says that what a call does to the rest is a step of the protocol or
   nothing. The books of the protocol are then those of the kernel. -/
namespace OpenV.Sched

open Function Proc Os Net RvOp

def Proc.node (p : Proc) : Node := ⟨p.ipc, p.again.map Prod.snd, p.senders⟩

/-- The protocol that the kernel is in. -/
def netOf (s : Os) (log : List Event) : Net where
  nodes q := (s.proc q).map node
  awake q := (s.proc q).isSome = true ∧ s.Runnable q
  log := log

/-- Alive, and with no interrupt messages. -/
def Calm (p : Proc) : Prop := ProcState.isZombie p.state = false ∧ p.irqPending = []

/-- What the kernel adds to the protocol. -/
structure Sane (s : Os) : Prop where
  unique : Unique s
  calm : ∀ q p, s.proc q = some p → Calm p

section Forget
variable {s : Os} {log : List Event} {q : Pid} {p : Proc} {f : Proc → Proc} {h : Nat}

theorem Sane.setProc (hs : Sane s) (hf : ∀ p, s.proc q = some p → Calm p → Calm (f p)) : Sane (s.setProc q f) where
  unique := hs.unique.setProc q f
  calm := forall_setProc (fun p hp => hf p hp (hs.calm _ p hp)) fun q p _ => hs.calm q p

theorem netOf_nodes (hp : s.proc q = some p) : (netOf s log).nodes q = some p.node := by
  change (s.proc q).map node = _
  rw [hp]
  rfl

theorem netOf_setProc (hp : s.proc q = some p) : netOf (s.setProc q f) log = (netOf s log).put q (f p).node := by
  have hsome : ∀ q', ((s.setProc q f).proc q').isSome = (s.proc q').isSome := by
    intro q'
    rw [Os.proc_setProc]
    split
    · rw [Option.isSome_map]
    · rfl
  apply Net.ext
  · funext q'
    rw [Net.nodes_put]
    simp only [netOf, Os.proc_setProc]
    split
    · rename_i e
      rw [e, hp]
      rfl
    · rfl
  · funext q'
    change ((_ = true) ∧ _) = ((_ = true) ∧ _)
    rw [hsome]
    rfl
  · rfl

/-- A change that the protocol does not see. -/
theorem netOf_same {s' : Os} (he : s.Each (fun p p' => p'.node = p.node) s')
    (hr : ∀ q p, s.proc q = some p → (s'.Runnable q ↔ s.Runnable q)) : netOf s' log = netOf s log := by
  have hnodes : ∀ q, (s'.proc q).map node = (s.proc q).map node := by
    intro q
    have h := he q
    generalize s.proc q = a, s'.proc q = b at h
    cases h with
    | none => rfl
    | some e => exact congrArg some e
  apply Net.ext
  · exact funext hnodes
  · funext q
    refine propext ?_
    change ((s'.proc q).isSome = true ∧ _) ↔ ((s.proc q).isSome = true ∧ _)
    have hsome : (s'.proc q).isSome = (s.proc q).isSome := by
      rw [← Option.isSome_map, hnodes, Option.isSome_map]
    rw [hsome]
    refine and_congr_right fun e => ?_
    obtain ⟨p, hp⟩ := Option.isSome_iff_exists.mp e
    exact hr q p hp
  · rfl

theorem netOf_setProc_same (hp : ∀ p, s.proc q = some p → (f p).node = p.node) :
    netOf (s.setProc q f) log = netOf s log :=
  netOf_same (.setProc (fun _ => rfl) hp) fun _ _ _ => Iff.rfl

theorem netOf_enqueue (hp : s.proc q = some p) : netOf (s.enqueue q) log = (netOf s log).wake q := by
  apply Net.ext
  · rfl
  · funext q'
    refine propext ?_
    change ((s.proc q').isSome = true ∧ (s.enqueue q).Runnable q') ↔ _
    rw [Unique.runnable_enqueue]
    constructor
    · rintro ⟨h1, rfl | h2⟩
      · exact .inl rfl
      · exact .inr ⟨h1, h2⟩
    · rintro (rfl | ⟨h1, h2⟩)
      · exact ⟨by rw [hp]; rfl, .inl rfl⟩
      · exact ⟨h1, .inr h2⟩
  · rfl

theorem netOf_leave (hu : Unique s) (hp : s.proc (s.current h) = some p) :
    netOf (s.leave h) log = (netOf s log).rest (s.current h) := by
  have hne : ∀ {q'}, (s.proc q').isSome = true → q' ≠ 0 := by
    rintro q' e rfl
    rw [hu.zero] at e
    cases e
  have h0 : s.current h ≠ 0 := hne (by rw [hp]; rfl)
  apply Net.ext
  · rfl
  · funext q'
    refine propext ?_
    constructor
    · rintro ⟨h1, h2⟩
      obtain ⟨h3, h4⟩ := (hu.runnable_leave h0 (hne h1)).mp h2
      exact ⟨h3, h1, h4⟩
    · rintro ⟨h1, h2, h3⟩
      exact ⟨h2, (hu.runnable_leave h0 (hne h2)).mpr ⟨h1, h3⟩⟩
  · rfl

theorem netOf_record {e : Event} : netOf s (log ++ [e]) = (netOf s log).record e := rfl

theorem netOf_setA0 {v : Nat} : netOf (s.setA0 q v) log = netOf s log := netOf_setProc_same fun _ _ => rfl

variable {n : Net} {a b : Node}

theorem Net.put_put : (n.put q a).put q b = n.put q b := by
  unfold put
  rw [update_idem]

theorem Net.put_put_put {q' : Pid} {c : Node} (hne : q ≠ q') :
    ((n.put q a).put q' b).put q c = (n.put q c).put q' b := by
  unfold put
  rw [update_comm hne, update_idem, update_comm hne.symm]

theorem Net.put_same (ha : n.nodes q = some a) : n.put q a = n := by
  unfold put
  rw [← ha, update_eq_self]

end Forget

/-- The protocol keeps its books, and the kernel its queues. -/
structure HistInv (x : Hist) : Prop where
  sane : Sane x.os
  net : NetInv (netOf x.os x.log)

/-- What is asked of the calls: receives have valid pointers, and there are no interrupts. -/
def RvOp.Plain : RvOp → Prop
  | .receive _ _ _ ptr => isUserPointerValid messageSize ptr 1 = true
  | .irq _ _ => False
  | _ => True

section Calls
variable {x : Hist} {h pc : Nat} {me dest src : Pid} {ptr : Nat} {body : Message} {p : Proc} {call : Call}

/-- The caller, as the protocol sees it. -/
theorem caller_ready (hc : x.os.caller h pc call = some me) :
    ∃ p, x.os.proc me = some p ∧ me = x.os.current h ∧ (netOf x.os x.log).Ready me call p.node := by
  obtain ⟨rfl, p, hp, hn⟩ := caller_eq hc
  refine ⟨p, hp, rfl, ⟨by rw [hp]; rfl, .inr ⟨h, rfl⟩⟩, netOf_nodes hp, ?_⟩
  rcases hn with e | e
  · exact .inl (by rw [node, e]; rfl)
  · exact .inr (by rw [node, e]; rfl)

/-- What a process that can make a call has in its state word. -/
inductive Fresh (p : Proc) (call : Call) : Prop where
  | idle (hi : p.ipc = .none) (ha : p.again = none)
  | back (hi : p.ipc ≠ .none) (ha : p.node.again = some call)

theorem Net.Ready.fresh {n : Net} (hn : NetInv n) (hr : n.Ready me call p.node) : Fresh p call := by
  have hph := hn.phase me p.node hr.node
  rcases hr.next with e | e
  · rw [e] at hph
    have hi : p.ipc = .none := by
      generalize hc : p.node.ipc = i at hph
      cases hph
      exact hc
    have ha : p.again = none := Option.map_eq_none_iff.mp e
    exact .idle hi ha
  · refine .back (fun hi => ?_) e
    have hi' : p.node.ipc = .none := hi
    rw [hi', e] at hph
    cases hph

theorem Proc.node_enter (p : Proc) (pc : Nat) (call : Call) :
    (p.enter pc call).node = { p.node with again := none } := by
  unfold node
  rw [again_enter]
  rfl

/-- A process that was turned back after its state word changed. -/
theorem node_rewind (p : Proc) (pc : Nat) (call : Call) (i : IpcState) :
    (rewind { p.enter pc call with ipc := i }).node = ⟨i, some call, p.senders⟩ := by
  simp [node, rewind, enter, again]

/-- A process that waits for a message is on no queue and no hart. -/
theorem not_runnable_of {b : Proc} (hx : HistInv x) (hb : x.os.proc dest = some b)
    (hr : b.ipc.receives me = true ∨ b.ipc.receivesReply me = true) : ¬x.os.Runnable dest := by
  intro hrun
  have hph := hx.net.phase dest b.node (netOf_nodes hb)
  have hw : (netOf x.os x.log).awake dest := ⟨by rw [hb]; rfl, hrun⟩
  generalize b.node.again = c at hph
  have hr' : b.node.ipc.receives me = true ∨ b.node.ipc.receivesReply me = true := hr
  generalize b.node.ipc = i at hph hr'
  cases hph with
  | receiving hs => exact hs hw
  | receivingReply hs ht => exact hs hw
  | _ => simp [IpcState.receives, IpcState.receivesReply] at hr'

section
variable {s : Os} (hs : Sane s)
include hs

theorem Sane.setIpc {i : IpcState} (q : Pid) : Sane (s.setIpc q i) :=
  hs.setProc fun _ _ h => h

theorem Sane.setA0 {v : Nat} (q : Pid) : Sane (s.setA0 q v) := hs.setProc fun _ _ h => h

theorem Sane.sleepAgain (q : Pid) (h : Nat) : Sane (s.sleepAgain h q) := by
  have h1 : Sane (s.setProc q rewind) := hs.setProc fun _ _ h => h
  exact ⟨h1.unique.leave h, h1.calm⟩

theorem Sane.enqueue {q : Pid} (hq : ¬s.Runnable q) : Sane (s.enqueue q) :=
  ⟨hs.unique.enqueue hq, hs.calm⟩

/-- The net after the caller was turned back and left its hart. -/
theorem netOf_sleepAgain {log : List Event} (hp : s.proc me = some p) (hme : me = s.current h) :
    netOf (s.sleepAgain h me) log = ((netOf s log).put me p.rewind.node).rest me := by
  subst hme
  have hp' : (s.setProc (s.current h) rewind).proc (s.current h) = some p.rewind := by
    rw [proc_setProc_self, hp]
    rfl
  have hu : Unique (s.setProc (s.current h) rewind) := hs.unique.setProc _ _
  have hl : netOf ((s.setProc (s.current h) rewind).leave h) log = _ := netOf_leave hu hp'
  rw [netOf_setProc hp] at hl
  exact hl

end

section Entered
variable {log : List Event} {s : Os}
variable {b : Proc} {q : Pid}

theorem proc_setIpc {i : IpcState} (hb : s.proc q = some b) : (s.setIpc q i).proc q = some { b with ipc := i } := by
  rw [setIpc, proc_setProc_self, hb]
  rfl

theorem node_done : node { p.enter pc call with ipc := .none } = { p.node with ipc := .none, again := none } := by
  simp [node, again, enter]

/-- The caller has entered the kernel, and is what it was to the protocol. -/
structure Entered (x : Hist) (h : Nat) (me : Pid) (pc : Nat) (call : Call) (p : Proc) (s : Os) : Prop where
  inv : HistInv x
  found : x.os.proc me = some p
  here : me = x.os.current h
  ready : (netOf x.os x.log).Ready me call p.node
  entered : s = x.os.setProc me (enter pc call)

variable (he : Entered x h me pc call p s)
include he

theorem Entered.proc : s.proc me = some (p.enter pc call) := by
  rw [he.entered, proc_setProc_self, he.found]
  rfl

theorem Entered.proc_of_ne (hq : q ≠ me) : s.proc q = x.os.proc q := by
  rw [he.entered, proc_setProc_of_ne hq]

theorem Entered.sane : Sane s := by
  rw [he.entered]
  exact he.inv.sane.setProc fun _ _ h => h

theorem Entered.net : netOf s log = (netOf x.os log).put me { p.node with again := none } := by
  rw [he.entered, netOf_setProc he.found, node_enter]

/-- An idle caller looks the same in the kernel as before. -/
theorem Entered.net_idle (ha : p.again = none) : netOf s log = netOf x.os log := by
  rw [he.net]
  refine put_same ?_
  rw [netOf_nodes he.found]
  unfold node
  rw [ha]
  rfl

/-- A caller that was given nothing for this call has not made it before. -/
theorem Entered.idle (hnew : ∀ {log q}, ¬Phase log True q p.ipc (some call)) : p.ipc = .none ∧ p.again = none := by
  cases he.ready.fresh he.inv.net with
  | idle hi ha => exact ⟨hi, ha⟩
  | back hi ha =>
    have hph := he.inv.net.phase me p.node he.ready.node
    rw [ha, eq_true he.ready.awake] at hph
    exact absurd hph hnew

theorem Entered.runnable (q : Pid) : s.Runnable q ↔ x.os.Runnable q := by
  rw [he.entered]
  exact Iff.rfl

theorem Entered.current : me = s.current h := by
  rw [he.entered]
  exact he.here

/-- The call returns at once. -/
theorem Entered.refused (ha : p.again = none) {v : Nat} : HistInv ⟨s.setA0 me v, x.log ++ []⟩ := by
  refine ⟨he.sane.setA0 me, ?_⟩
  rw [List.append_nil, netOf_setA0, he.net_idle ha]
  exact he.inv.net

/-- The caller waits in the queue of its target. -/
theorem Entered.queueUp {r : Option Nat} (hc : Net.SendCall dest r call) (hi : p.ipc = .none) (hne : dest ≠ me)
    (hb : s.proc dest = some b) (hr : b.ipc.receives me = false) :
    HistInv ⟨s.queueUp h me dest { body with source := me } r, x.log ++ [.sent me dest { body with source := me }]⟩ := by
  have hbx : x.os.proc dest = some b := (he.proc_of_ne hne).symm.trans hb
  have hs1 : Sane (s.setIpc me (.sending dest { body with source := me } r)) := he.sane.setIpc me
  have hb1 : (s.setIpc me (.sending dest { body with source := me } r)).proc dest = some b := by
    rw [setIpc, proc_setProc_of_ne hne, hb]
  have hs2 : Sane ((s.setIpc me (.sending dest { body with source := me } r)).setProc dest
      fun t => { t with senders := t.senders ++ [me] }) := hs1.setProc fun _ _ h => h
  have hp2 : ((s.setIpc me (.sending dest { body with source := me } r)).setProc dest
      fun t => { t with senders := t.senders ++ [me] }).proc me =
      some { p.enter pc call with ipc := .sending dest { body with source := me } r } := by
    rw [proc_setProc_of_ne hne.symm, proc_setIpc he.proc]
  refine ⟨hs2.sleepAgain me h, ?_⟩
  have hnet := he.inv.net.step (.queue (m := { body with source := me }) he.ready hc hi hne rfl (netOf_nodes hbx) hr)
  rw [Os.queueUp, netOf_sleepAgain hs2 hp2 he.current,
    netOf_setProc hb1, setIpc, netOf_setProc he.proc, he.net, put_put, put_put_put hne.symm, node_rewind]
  exact hnet

/-- The caller gives its message to a process that waits for it. -/
theorem Entered.deposit (hb : s.proc dest = some b) (hne : dest ≠ me)
    (hr : b.ipc.receives me = true ∨ b.ipc.receivesReply me = true) (msg : Message) (log : List Event) :
    Sane (s.deposit dest msg) ∧ netOf (s.deposit dest msg) log =
      (((netOf x.os log).put me { p.node with again := none }).put dest
        { b.node with ipc := .messageAvailable msg }).wake dest := by
  have hbx : x.os.proc dest = some b := (he.proc_of_ne hne).symm.trans hb
  have hs1 : Sane (s.setIpc dest (.messageAvailable msg)) := he.sane.setIpc dest
  refine ⟨hs1.enqueue fun e => not_runnable_of he.inv hbx hr ((he.runnable dest).mp e), ?_⟩
  change netOf ((s.setIpc dest (.messageAvailable msg)).enqueue dest) log = _
  rw [netOf_enqueue (proc_setIpc hb), setIpc, netOf_setProc hb, he.net]
  rfl

end Entered

variable {s : Os}

theorem send_sim (he : Entered x h me pc (.send dest ptr) p s) :
    (ipcSend h me dest ptr body s).elim True fun r => HistInv ⟨r.1, x.log ++ r.2⟩ := by
  have hidle : p.ipc ≠ .sendComplete → p.ipc = .none ∧ p.again = none := by
    refine fun hne => he.idle fun hph => ?_
    -- only a send that was taken makes a send again
    generalize p.ipc = i at hph hne
    cases hph with
    | sending hs => exact hs trivial
    | sent _ => exact hne rfl
  unfold ipcSend
  rw [he.proc]
  dsimp only
  split
  · rename_i hi
    have hi' : p.ipc = .sendComplete := hi
    refine ⟨(he.sane.setIpc me).setA0 me, ?_⟩
    dsimp only
    rw [List.append_nil, netOf_setA0, setIpc, netOf_setProc he.proc, he.net, put_put]
    rw [node_done]
    exact he.inv.net.step (.finish he.ready hi')
  rename_i hi
  obtain ⟨hnone, ha⟩ := hidle hi
  split
  · exact he.refused ha
  split
  · exact he.refused ha
  rename_i t ht
  split
  · rename_i hr
    have hr' := Bool.or_eq_true_iff.mp hr
    have hne : dest ≠ me := by
      rintro rfl
      rw [he.proc] at ht
      cases ht
      have hnone' : (p.enter pc (.send dest ptr)).ipc = .none := hnone
      rw [hnone'] at hr
      cases hr
    obtain ⟨hsane, hnet⟩ := he.deposit ht hne hr' { body with source := me }
      (x.log ++ [.sent me dest { body with source := me }])
    refine ⟨hsane.setA0 me, ?_⟩
    rw [netOf_setA0, hnet]
    have htx : x.os.proc dest = some t := (he.proc_of_ne hne).symm.trans ht
    exact he.inv.net.step (.deliver (m := { body with source := me }) he.ready hnone hne rfl (netOf_nodes htx) hr')
  · rename_i hr
    split
    · trivial
    · rename_i hne
      exact he.queueUp ⟨ptr, rfl⟩ hnone hne ht (Bool.eq_false_iff.mpr fun e => hr (by rw [e]; rfl))

theorem netOf_takeMessage {log : List Event} (hp : s.proc me = some p) (hq : p.irqPending = []) :
    netOf (s.takeMessage me) log = (netOf s log).put me { p.node with ipc := .none } := by
  rw [takeMessage, netOf_setProc hp, hq]
  rfl

theorem receive_sim (he : Entered x h me pc (.receive src ptr) p s)
    (hv : isUserPointerValid messageSize ptr 1 = true) :
    (ipcReceive h me src ptr s).elim True fun r => HistInv ⟨r.1, x.log ++ r.2⟩ := by
  have hquiet : (p.enter pc (.receive src ptr)).irqPending = [] := (he.inv.sane.calm me p he.found).2
  have hidle : (∀ m, p.ipc ≠ .messageAvailable m) → p.ipc = .none ∧ p.again = none := by
    refine fun hne => he.idle fun hph => ?_
    -- only a receive that was given its message makes a receive again
    generalize p.ipc = i at hph hne
    cases hph with
    | sending hs => exact hs trivial
    | receiving hs => exact hs trivial
    | received _ _ => exact hne _ rfl
  have hv' : ¬isUserPointerValid messageSize ptr 1 = false := fun e => Bool.false_ne_true (e.symm.trans hv)
  unfold ipcReceive
  rw [he.proc]
  dsimp only
  split
  · rename_i m hm
    rw [if_neg hv']
    have hm' : p.node.ipc = .messageAvailable m := hm
    refine ⟨Sane.setA0 (he.sane.setProc fun p' hp' hcalm => ?_) me, ?_⟩
    · rw [hcalm.2]
      exact ⟨hcalm.1, rfl⟩
    · rw [netOf_setA0, netOf_record, netOf_takeMessage he.proc hquiet, he.net, put_put, node_enter]
      have hstep := he.inv.net.step (.take he.ready hm')
      exact hstep
  rename_i hm
  obtain ⟨hnone, ha⟩ := hidle hm
  rw [hquiet]
  dsimp only [List.find?_nil]
  unfold receiveQueued
  split
  · rename_i hf
    have hs1 : Sane (s.setIpc me (.receiving src ptr)) := he.sane.setIpc me
    refine ⟨hs1.sleepAgain me h, ?_⟩
    dsimp only
    rw [List.append_nil, netOf_sleepAgain hs1 (proc_setIpc he.proc) he.current, setIpc,
      netOf_setProc he.proc, he.net, put_put, put_put, node_rewind]
    refine he.inv.net.step (.sleep he.ready hnone fun q hq => ?_)
    exact Bool.eq_false_iff.mpr (List.find?_eq_none.mp hf q hq)
  rename_i sender hf
  have hmem : sender ∈ p.node.senders := List.mem_of_find?_eq_some hf
  have hacc : accepts src sender = true := List.find?_some (p := fun q : Pid => accepts src q) hf
  -- a process in the queue is waiting to send
  have htarget : (netOf x.os x.log).target sender = some me :=
    (he.inv.net.link me sender).mp (by rw [Net.senders, Net.view_of he.ready.node]; exact hmem)
  obtain ⟨b, hb, hbt⟩ : ∃ b, x.os.proc sender = some b ∧ b.ipc.target = some me := by
    unfold target view at htarget
    cases hb : x.os.proc sender with
    | none =>
      simp only [netOf, hb] at htarget
      cases htarget
    | some b =>
      simp only [netOf, hb] at htarget
      exact ⟨b, rfl, htarget⟩
  obtain ⟨m, r, hbi⟩ : ∃ m r, b.ipc = .sending me m r := by
    cases hbi : b.ipc with
    | sending t m r =>
      rw [hbi] at hbt
      cases hbt
      exact ⟨m, r, rfl⟩
    | _ =>
      rw [hbi] at hbt
      cases hbt
  have hne : sender ≠ me := by
    rintro rfl
    rw [he.found] at hb
    cases hb
    rw [hnone] at hbi
    cases hbi
  have hs1 : Sane (s.setProc me fun p => { p with senders := p.senders.erase sender }) := he.sane.setProc fun _ _ h => h
  have hb1 : (s.setProc me fun p => { p with senders := p.senders.erase sender }).proc sender = some b := by
    rw [proc_setProc_of_ne hne, he.proc_of_ne hne, hb]
  have hnet1 : netOf (s.setProc me fun p => { p with senders := p.senders.erase sender })
      (x.log ++ [.received me src m]) = ((netOf x.os (x.log ++ [.received me src m])).put me
        { p.node with again := none, senders := p.node.senders.erase sender }) := by
    rw [netOf_setProc he.proc, he.net, put_put]
    congr 1
    simp [node, again, enter]
  have hstep := he.inv.net.step (.collect he.ready hnone hmem hacc (netOf_nodes hb) hbi)
  dsimp only
  rw [hb1]
  dsimp only
  rw [hbi]
  dsimp only
  rw [if_neg hv']
  cases r with
  | some rp =>
    refine ⟨(hs1.setIpc sender).setA0 me, ?_⟩
    rw [netOf_setA0, Os.handOver, Os.setIpc, netOf_setProc hb1, hnet1]
    exact hstep
  | none =>
    have hnot : ¬x.os.Runnable sender := by
      intro hrun
      have hph := he.inv.net.phase sender b.node (netOf_nodes hb)
      have hbi' : b.node.ipc = .sending me m none := hbi
      rw [hbi'] at hph
      generalize b.node.again = c at hph
      cases hph with
      | sending hs => exact hs ⟨by rw [hb]; rfl, hrun⟩
    refine ⟨((hs1.setIpc sender).enqueue fun e => hnot ((he.runnable sender).mp e)).setA0 me, ?_⟩
    rw [netOf_setA0, Os.handOver, netOf_enqueue (proc_setIpc hb1), Os.setIpc, netOf_setProc hb1, hnet1]
    exact hstep

theorem sendrec_sim (he : Entered x h me pc (.sendrec dest ptr) p s) :
    (ipcSendrec h me dest ptr body s).elim True fun r => HistInv ⟨r.1, x.log ++ r.2⟩ := by
  have hidle : (∀ m, p.ipc ≠ .messageAvailable m) → p.ipc = .none ∧ p.again = none := by
    refine fun hne => he.idle fun hph => ?_
    -- only a sendrec that was given its reply makes a sendrec again
    generalize p.ipc = i at hph hne
    cases hph with
    | sending hs => exact hs trivial
    | receivingReply hs => exact hs trivial
    | replied _ _ => exact hne _ rfl
  unfold ipcSendrec
  rw [he.proc]
  dsimp only
  split
  · rename_i m hm
    have hm' : p.node.ipc = .messageAvailable m := hm
    refine ⟨(he.sane.setIpc me).setA0 me, ?_⟩
    rw [netOf_setA0, netOf_record, setIpc, netOf_setProc he.proc, he.net, put_put]
    rw [node_done]
    exact he.inv.net.step (.reply he.ready hm')
  · rename_i hm
    have hm' : p.ipc = _ := hm
    have hn := (hidle (by rw [hm']; exact fun _ e => by cases e)).1
    rw [hm'] at hn
    cases hn
  · rename_i hm
    obtain ⟨hnone, ha⟩ := hidle (by
      have hm' : p.ipc = .none := hm
      rw [hm']
      exact fun _ e => by cases e)
    split
    · exact he.refused ha
    rename_i t ht
    split
    · trivial
    rename_i hne
    split
    · rename_i hr
      obtain ⟨hsane, hnet⟩ := he.deposit ht hne (.inl hr) { body with source := me }
        (x.log ++ [.sent me dest { body with source := me }])
      have htx : x.os.proc dest = some t := (he.proc_of_ne hne).symm.trans ht
      have hp1 : (s.deposit dest { body with source := me }).proc me = some (p.enter pc (.sendrec dest ptr)) := by
        rw [deposit, proc_enqueue, proc_setProc_of_ne (Ne.symm hne), he.proc]
      have hs2 : Sane (setIpc me (.receivingReply dest ptr) (s.deposit dest { body with source := me })) :=
        hsane.setIpc me
      refine ⟨hs2.sleepAgain me h, ?_⟩
      rw [netOf_sleepAgain hs2 (proc_setIpc hp1) he.current, setIpc, netOf_setProc hp1, hnet, put_put, node_rewind]
      have hstep := he.inv.net.step (.ask (m := { body with source := me }) he.ready hnone hne rfl (netOf_nodes htx) hr)
      rw [← put_put_put (Ne.symm hne)] at hstep
      exact hstep
    · rename_i hr
      exact he.queueUp rfl hnone hne ht (Bool.eq_false_iff.mpr hr)
  · rename_i hm1 hm2 hm3
    exact absurd (hidle hm1).1 hm3

end Calls

/-! ## Runs -/

section Runs
variable {x : Hist} {s s' : Os} {log : List Event} {h pc : Nat}

theorem calm_of_each (hc : ∀ q p, s.proc q = some p → Calm p) (he : s.Each (fun p p' => Calm p → Calm p') s') (q : Pid)
    (p' : Proc) (hp' : s'.proc q = some p') : Calm p' := by
  obtain ⟨p, hp, e⟩ := he.of_some hp'
  exact e (hc q p hp)

theorem dispatch_sim (hx : HistInv x) : HistInv ⟨x.os.dispatch h, x.log ++ []⟩ := by
  have hu := hx.sane.unique
  refine ⟨⟨hu.dispatch h, ?_⟩, ?_⟩
  · exact calm_of_each hx.sane.calm (.dispatch (fun _ h => h) fun _ h => ⟨rfl, h.2⟩)
  · rw [List.append_nil]
    dsimp only
    rw [netOf_same (.dispatch (fun _ => rfl) fun _ => rfl) fun q p hp =>
      hu.runnable_dispatch hp (hx.sane.calm q p hp).1]
    exact hx.net

theorem Proc.node_interrupted (p : Proc) : (p.interrupted pc).node = p.node := by
  unfold interrupted
  split
  · rfl
  · rename_i h
    have ha : p.again = none := Option.not_isSome_iff_eq_none.mp h
    unfold node
    rw [ha]
    rfl

theorem Calm.interrupted {p : Proc} (h : Calm p) : Calm (p.interrupted pc) := by
  unfold Proc.interrupted
  split <;> exact h

theorem preempt_sim (hx : HistInv x) : HistInv ⟨x.os.preempt h pc, x.log ++ []⟩ := by
  have hu := hx.sane.unique
  refine ⟨⟨hu.preempt h pc, ?_⟩, ?_⟩
  · exact calm_of_each hx.sane.calm (.preempt (fun _ h => h) fun _ h => h.interrupted)
  · rw [List.append_nil]
    dsimp only
    rw [netOf_same (.preempt (fun _ => rfl) node_interrupted) fun q p hp => Unique.runnable_preempt ?_ pc]
    · exact hx.net
    · rintro rfl
      rw [hu.zero] at hp
      cases hp

theorem viaCall_sim {call : Call} {f : Pid → Os → Option (Os × List Event)} (hx : HistInv x)
    (hf : ∀ me p s, Entered x h me pc call p s → (f me s).elim True fun r => HistInv ⟨r.1, x.log ++ r.2⟩) :
    (viaCall h pc call f x.os).elim True fun r => HistInv ⟨r.1, x.log ++ r.2⟩ := by
  unfold viaCall
  cases hc : x.os.caller h pc call with
  | none =>
    refine ⟨hx.sane, ?_⟩
    dsimp only
    rw [List.append_nil]
    exact hx.net
  | some me =>
    obtain ⟨p, hp, hme, hr⟩ := caller_ready hc
    exact hf me p _ ⟨hx, hp, hme, hr, rfl⟩

/-- Every plain step of the kernel is a step of the protocol, or nothing to it. -/
theorem RvOp.run_sim (op : RvOp) (x : Hist) (hx : HistInv x) :
    op.run.endsIn (fun x' => op.Plain → HistInv x') x := by
  refine wp_run.mpr ?_
  have hlift : ∀ {o : Option (Os × List Event)}, (o.elim True fun r => HistInv ⟨r.1, x.log ++ r.2⟩) →
      o.elim True fun r => op.Plain → HistInv ⟨r.1, x.log ++ r.2⟩ := by
    intro o ho
    cases o with
    | none => trivial
    | some r => exact fun _ => ho
  cases op with
  | dispatch h => exact fun _ => dispatch_sim hx
  | preempt h pc => exact fun _ => preempt_sim hx
  | send h pc dest ptr body => exact hlift (viaCall_sim hx fun me p s he => send_sim he)
  | receive h pc src ptr =>
    by_cases hv : isUserPointerValid messageSize ptr 1 = true
    · exact hlift (viaCall_sim hx fun me p s he => receive_sim he hv)
    · cases (receive h pc src ptr).step x.os with
      | none => trivial
      | some r => exact fun hplain => absurd hplain hv
  | sendrec h pc dest ptr body => exact hlift (viaCall_sim hx fun me p s he => sendrec_sim he)
  | irq pid n => exact fun hplain => hplain.elim

end Runs

/-- The messages from `p` to `q` that are under way, in the order they will arrive. -/
def Os.inFlight (s : Os) (p q : Pid) : List Message :=
  ((s.proc q).elim [] fun b => b.ipc.deposited p) ++ (s.proc p).elim [] fun a => a.ipc.waiting q

/-- What rendezvous messages are for. -/
structure Delivered (x : Hist) : Prop where
  /-- what `q` got from `p` is what `p` sent to `q`, in order, but for what is under way -/
  once : ∀ p q, sentTo x.log p q = gotBy x.log p q ++ x.os.inFlight p q
  source : ∀ p q m, .sent p q m ∈ x.log → m.source = p
  directed : ∀ q filter m, .received q filter m ∈ x.log → filter = -1 ∨ filter = m.source
  /-- a sendrec of `p` to `q` returns what `q` sent to `p` after it had received the request -/
  answered : ∀ p q m pre post, x.log = pre ++ .replied p q m :: post → Answered pre p q m
  /-- a process that was given a message can run, and its next call returns it -/
  next : ∀ q b m, x.os.proc q = some b → b.ipc = .messageAvailable m → x.os.Runnable q ∧
    ∃ pc, (∃ src ptr, b.again = some (pc, .receive src ptr)) ∨ ∃ ptr, b.again = some (pc, .sendrec m.source ptr)
  /-- a process that waits to send is in the queue of its target, which does not sleep in a receive that accepts it -/
  queued : ∀ p a t m r, x.os.proc p = some a → a.ipc = .sending t m r → ∃ b, x.os.proc t = some b ∧ p ∈ b.senders ∧
    ∀ src ptr, b.ipc = .receiving src ptr → accepts src p = false

theorem netOf_view {β : Type} {s : Os} {log : List Event} {q : Pid} {d : β} {f : Node → β} :
    (netOf s log).view d f q = (s.proc q).elim d fun p => f p.node := by
  unfold view
  change ((s.proc q).map node).elim d f = _
  cases s.proc q <;> rfl

theorem HistInv.delivered {x : Hist} (hx : HistInv x) : Delivered x where
  once p q := by
    have hb := hx.net.books p q
    unfold Net.inFlight Net.deposited Net.waiting at hb
    rw [netOf_view, netOf_view] at hb
    exact hb
  source := hx.net.source
  directed q filter m hm := by
    have ha := hx.net.filter q filter m hm
    simpa [accepts] using ha
  answered := hx.net.answer
  next q b m hb hi := by
    have hph := hx.net.phase q b.node (netOf_nodes hb)
    have hi' : b.node.ipc = .messageAvailable m := hi
    rw [hi'] at hph
    have hag : ∀ {call}, b.node.again = some call → ∃ pc, b.again = some (pc, call) := by
      intro call e
      obtain ⟨⟨pc, call'⟩, h1, rfl⟩ := Option.map_eq_some_iff.mp e
      exact ⟨pc, h1⟩
    generalize hc : b.node.again = c at hph
    cases hph with
    | received hw ha =>
      obtain ⟨pc, e⟩ := hag hc
      exact ⟨hw.2, pc, .inl ⟨_, _, e⟩⟩
    | replied hw ha =>
      obtain ⟨pc, e⟩ := hag hc
      exact ⟨hw.2, pc, .inr ⟨_, e⟩⟩
  queued p a t m r ha hi := by
    have hmem := (hx.net.link t p).mpr (by
      rw [target, netOf_view, ha]
      change a.ipc.target = _
      rw [hi]
      rfl)
    rw [Net.senders, netOf_view] at hmem
    cases hb : x.os.proc t with
    | none =>
      rw [hb] at hmem
      cases hmem
    | some b =>
      rw [hb] at hmem
      exact ⟨b, rfl, hmem, fun src ptr e => hx.net.patient t b.node src ptr (netOf_nodes hb) e p hmem⟩

/-- A kernel in which no process is in the middle of anything. -/
structure IdleStart (s : Os) : Prop where
  unique : Unique s
  any : s.proc (-1) = none
  idle : ∀ q p, s.proc q = some p → ProcState.isZombie p.state = false ∧ p.ipc = .none ∧ p.again = none ∧
    p.senders = [] ∧ p.irqPending = []

theorem IdleStart.inv {s : Os} (h : IdleStart s) : HistInv ⟨s, []⟩ where
  sane := ⟨h.unique, fun q p hp => ⟨(h.idle q p hp).1, (h.idle q p hp).2.2.2.2⟩⟩
  net := by
    have hnode : ∀ q a, (netOf s []).nodes q = some a → a = ⟨.none, none, []⟩ := by
      intro q a ha
      obtain ⟨p, hp, rfl⟩ := Option.map_eq_some_iff.mp ha
      obtain ⟨-, h1, h2, h3, -⟩ := h.idle q p hp
      unfold node
      rw [h1, h2, h3]
      rfl
    have hview : ∀ {β : Type} {d : β} {f : Node → β} (q : Pid), f ⟨.none, none, []⟩ = d →
        (netOf s []).view d f q = d := by
      intro β d f q hf
      unfold view
      cases ha : (netOf s []).nodes q with
      | none => rfl
      | some a =>
        rw [hnode q a ha]
        exact hf
    have hsenders : ∀ t, (netOf s []).senders t = [] := fun t => hview t rfl
    have htarget : ∀ t, (netOf s []).target t = none := fun t => hview t rfl
    refine
      { any := ?_, phase := fun q a ha => ?_, nodup := fun t => ?_, link := fun t q => ?_,
        asked := fun q a t ptr ha hi => ?_, patient := fun q a src ptr ha hi => ?_, books := fun p q => ?_,
        source := nofun, filter := nofun, answer := fun p q m pre post e => ?_ }
    · change (s.proc (-1)).map node = none
      rw [h.any]
      rfl
    · rw [hnode q a ha]
      exact .idle
    · rw [hsenders]
      exact List.nodup_nil
    · rw [hsenders, htarget]
      exact ⟨nofun, nofun⟩
    · rw [hnode q a ha] at hi
      cases hi
    · rw [hnode q a ha] at hi
      cases hi
    · have h1 : (netOf s []).deposited p q = [] := hview q rfl
      have h2 : (netOf s []).waiting p q = [] := hview p rfl
      rw [Net.inFlight, h1, h2]
      rfl
    · cases pre <;> cases e

/-- Rendezvous messages are delivered: in every run of sends, receives and sendrecs. -/
theorem rendezvous_delivers {s : Os} {x : Hist} (h : IdleStart s) (ops : List RvOp)
    (hplain : Along run (fun op _ _ => op.Plain) ops ⟨s, []⟩) (hrun : runAll run ops ⟨s, []⟩ = some x) :
    Delivered x :=
  HistInv.delivered (runAll_inv HistInv run_sim h.inv hrun hplain)

/-- The second process asks the first, which receives the request and sends the reply. -/
def rendezvousRun : List RvOp :=
  [.dispatch 0, .receive 0 0x1000 (-1) 0x100000000, .dispatch 0, .sendrec 0 0x2000 1 0x100000000 ⟨0, 7, []⟩,
    .dispatch 0, .receive 0 0x1000 (-1) 0x100000000, .send 0 0x1008 2 0x100000000 ⟨0, 8, []⟩, .preempt 0 0x100c,
    .dispatch 0, .sendrec 0 0x2000 1 0x100000000 ⟨0, 7, []⟩]

theorem irqExample_idle : IdleStart irqExample where
  unique := ⟨by decide, fun h h0 => absurd rfl h0, fun h h' _ h0 => absurd rfl h0, rfl⟩
  any := rfl
  idle q p hp := by
    by_cases h1 : q = 1
    · subst h1
      cases hp
      exact ⟨rfl, rfl, rfl, rfl, rfl⟩
    · by_cases h2 : q = 2
      · subst h2
        cases hp
        exact ⟨rfl, rfl, rfl, rfl, rfl⟩
      · have hnone : irqExample.proc q = none := by
          simp [irqExample, start, proc, Table.get_insert, h1, h2, Table.empty]
        rw [hnone] at hp
        cases hp

theorem rendezvous_delivers_reply : ∃ x, runAll run rendezvousRun ⟨irqExample, []⟩ = some x ∧
    x.log = [.sent 2 1 ⟨2, 7, []⟩, .received 1 (-1) ⟨2, 7, []⟩, .sent 1 2 ⟨1, 8, []⟩, .replied 2 1 ⟨1, 8, []⟩] ∧
    Delivered x := by
  have hplain : Along run (fun op _ _ => op.Plain) rendezvousRun ⟨irqExample, []⟩ :=
    ⟨trivial, rfl, trivial, trivial, trivial, rfl, trivial, trivial, trivial, trivial, trivial⟩
  exact ⟨_, rfl, rfl, rendezvous_delivers irqExample_idle rendezvousRun hplain rfl⟩

end OpenV.Sched
