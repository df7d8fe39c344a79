import OpenV.Lib.Index
import OpenV.Sched.Rendezvous

/- The rendezvous protocol by itself: processes are a state word, the call they
   are about to make again and a queue of senders, and `Step` lists what their
   calls do. `NetInv` says where every message is: what one process sent to
   another is what the other got from it, in that order, followed by what is
   under way. The calls of the kernel are steps of this protocol (`Delivery`). -/
namespace OpenV.Sched

open Function List

/-- What the protocol knows of a process. -/
structure Node where
  ipc : IpcState
  again : Option Call
  senders : List Pid

/-- The processes, which of them can run, and what has happened. -/
@[ext]
structure Net where
  nodes : Pid → Option Node
  awake : Pid → Prop
  log : List Event

namespace Net

def put (n : Net) (q : Pid) (a : Node) : Net := { n with nodes := update n.nodes q (some a) }

def wake (n : Net) (q : Pid) : Net := { n with awake := fun p => p = q ∨ n.awake p }

def rest (n : Net) (q : Pid) : Net := { n with awake := fun p => p ≠ q ∧ n.awake p }

def record (n : Net) (e : Event) : Net := { n with log := n.log ++ [e] }

/-- The process can make the call now. -/
structure Ready (n : Net) (me : Pid) (call : Call) (a : Node) : Prop where
  awake : n.awake me
  node : n.nodes me = some a
  next : a.again = none ∨ a.again = some call

/-- The call that sends to `dest`, and for a sendrec waits for the reply. -/
def SendCall (dest : Pid) (replyPtr : Option Nat) (call : Call) : Prop :=
  match replyPtr with
  | none => ∃ ptr, call = .send dest ptr
  | some ptr => call = .sendrec dest ptr

def handOver (n : Net) (sender me : Pid) (b : Node) : Option Nat → Net
  | some ptr => n.put sender { b with ipc := .receivingReply me ptr }
  | none => (n.put sender { b with ipc := .sendComplete }).wake sender

inductive Step (n : Net) : Net → Prop where
  /-- a send returns after its message was taken -/
  | finish {me dest ptr a} (h : n.Ready me (.send dest ptr) a) (hi : a.ipc = .sendComplete) :
      Step n (n.put me { a with ipc := .none, again := none })
  /-- a send finds its target waiting -/
  | deliver {me dest ptr a b m} (h : n.Ready me (.send dest ptr) a) (hi : a.ipc = .none) (hne : dest ≠ me)
      (hm : m.source = me) (hb : n.nodes dest = some b)
      (hr : b.ipc.receives me = true ∨ b.ipc.receivesReply me = true) :
      Step n ((((n.put me { a with again := none }).put dest { b with ipc := .messageAvailable m }).wake dest).record
        (.sent me dest m))
  /-- a send or sendrec waits for its target -/
  | queue {me dest r call a b m} (h : n.Ready me call a) (hc : SendCall dest r call) (hi : a.ipc = .none)
      (hne : dest ≠ me) (hm : m.source = me) (hb : n.nodes dest = some b) (hr : b.ipc.receives me = false) :
      Step n ((((n.put me { a with ipc := .sending dest m r, again := some call }).put dest
        { b with senders := b.senders ++ [me] }).rest me).record (.sent me dest m))
  /-- a sendrec finds its target waiting -/
  | ask {me dest ptr a b m} (h : n.Ready me (.sendrec dest ptr) a) (hi : a.ipc = .none) (hne : dest ≠ me)
      (hm : m.source = me) (hb : n.nodes dest = some b) (hr : b.ipc.receives me = true) :
      Step n (((((n.put me { a with ipc := .receivingReply dest ptr, again := some (.sendrec dest ptr) }).put dest
        { b with ipc := .messageAvailable m }).wake dest).rest me).record (.sent me dest m))
  /-- a receive returns the message in the state word -/
  | take {me src ptr a m} (h : n.Ready me (.receive src ptr) a) (hi : a.ipc = .messageAvailable m) :
      Step n ((n.put me { a with ipc := .none, again := none }).record (.received me src m))
  /-- a receive finds nothing -/
  | sleep {me src ptr a} (h : n.Ready me (.receive src ptr) a) (hi : a.ipc = .none)
      (hs : ∀ q ∈ a.senders, accepts src q = false) :
      Step n ((n.put me { a with ipc := .receiving src ptr, again := some (.receive src ptr) }).rest me)
  /-- a receive takes the message of a waiting sender -/
  | collect {me src ptr a sender b t m r} (h : n.Ready me (.receive src ptr) a) (hi : a.ipc = .none)
      (hs : sender ∈ a.senders) (hacc : accepts src sender = true) (hb : n.nodes sender = some b)
      (hbi : b.ipc = .sending t m r) :
      Step n (((n.put me { a with again := none, senders := a.senders.erase sender }).handOver sender me b r).record
        (.received me src m))
  /-- a sendrec returns the reply -/
  | reply {me dest ptr a m} (h : n.Ready me (.sendrec dest ptr) a) (hi : a.ipc = .messageAvailable m) :
      Step n ((n.put me { a with ipc := .none, again := none }).record (.replied me dest m))

end Net

/-! ## Messages in the history and under way -/

/-- The process whose call the event is part of. -/
def Event.actor : Event → Pid
  | .sent src _ _ => src
  | .received pid _ _ => pid
  | .replied pid _ _ => pid
  | .injected pid _ => pid

def Event.sentFromTo (p q : Pid) : Event → Option Message
  | .sent src dest m => if src = p ∧ dest = q then some m else none
  | _ => none

/-- A message from `p` that a call of `q` returned. -/
def Event.gotFrom (p q : Pid) : Event → Option Message
  | .received pid _ m => if pid = q ∧ m.source = p then some m else none
  | .replied pid _ m => if pid = q ∧ m.source = p then some m else none
  | _ => none

/-- The messages that `p` sent to `q`. -/
def sentTo (log : List Event) (p q : Pid) : List Message := log.filterMap (Event.sentFromTo p q)

/-- The messages from `p` that `q` got. -/
def gotBy (log : List Event) (p q : Pid) : List Message := log.filterMap (Event.gotFrom p q)

/-- The message from `p` in the state word. -/
def IpcState.deposited (p : Pid) : IpcState → List Message
  | .messageAvailable m => if m.source = p then [m] else []
  | _ => []

/-- The message that a waiting sender has for `q`. -/
def IpcState.waiting (q : Pid) : IpcState → List Message
  | .sending t m _ => if t = q then [m] else []
  | _ => []

def IpcState.target : IpcState → Option Pid
  | .sending t _ _ => some t
  | _ => .none

/-- What has happened since the last event of `p`, which was sending `m` to `q`. -/
def Since (log : List Event) (p q : Pid) (P : Message → List Event → Prop) : Prop :=
  ∃ a m b, log = a ++ .sent p q m :: b ∧ (∀ e ∈ b, e.actor ≠ p) ∧ P m b

/-- `m` is the last thing that `p` did. -/
def Open (log : List Event) (p q : Pid) (m : Message) : Prop := Since log p q fun m' _ => m' = m

/-- `q` has received the request that was the last thing `p` did. -/
def Heard (log : List Event) (p q : Pid) : Prop := Since log p q fun req b => ∃ f, .received q f req ∈ b

/-- `q` has received the request that was the last thing `p` did, and sent `m` to `p` after that. -/
def Answered (log : List Event) (p q : Pid) (m : Message) : Prop :=
  Since log p q fun req b => ∃ f, [.received q f req, .sent q p m].Sublist b

/-- What a process is doing, by its state word. -/
inductive Phase (log : List Event) (awake : Prop) (q : Pid) : IpcState → Option Call → Prop where
  | idle : Phase log awake q .none none
  | sending {t m r call} (hs : ¬awake) (hm : m.source = q) (ht : t ≠ -1) (hc : Net.SendCall t r call)
      (ho : Open log q t m) : Phase log awake q (.sending t m r) (some call)
  | receiving {src ptr} (hs : ¬awake) : Phase log awake q (.receiving src ptr) (some (.receive src ptr))
  | receivingReply {t ptr} (hs : ¬awake) (ht : t ≠ -1) :
      Phase log awake q (.receivingReply t ptr) (some (.sendrec t ptr))
  | received {m src ptr} (hw : awake) (ha : accepts src m.source = true) :
      Phase log awake q (.messageAvailable m) (some (.receive src ptr))
  | replied {m ptr} (hw : awake) (ha : Answered log q m.source m) :
      Phase log awake q (.messageAvailable m) (some (.sendrec m.source ptr))
  | sent {t ptr} (hw : awake) : Phase log awake q .sendComplete (some (.send t ptr))

namespace Net

/-- Something about a process, with a value for those that do not exist. -/
def view {β : Type} (n : Net) (d : β) (f : Node → β) (q : Pid) : β := (n.nodes q).elim d f

def senders (n : Net) (q : Pid) : List Pid := n.view [] Node.senders q

def target (n : Net) (q : Pid) : Option Pid := n.view none (fun a => a.ipc.target) q

def deposited (n : Net) (p q : Pid) : List Message := n.view [] (fun b => b.ipc.deposited p) q

def waiting (n : Net) (p q : Pid) : List Message := n.view [] (fun a => a.ipc.waiting q) p

/-- The messages from `p` to `q` that are under way, in the order they will arrive. -/
def inFlight (n : Net) (p q : Pid) : List Message := n.deposited p q ++ n.waiting p q

/-- The process is about to receive `m`. -/
def Holds (n : Net) (t : Pid) (m : Message) : Prop :=
  ∃ b src ptr, n.nodes t = some b ∧ b.ipc = .messageAvailable m ∧ b.again = some (.receive src ptr)

/-- The request of `q` was received by `t`, or is about to be. -/
abbrev Asked (n : Net) (q t : Pid) : Prop := Heard n.log q t ∨ ∃ m, Open n.log q t m ∧ n.Holds t m

end Net

/-- The books of the protocol. -/
structure NetInv (n : Net) : Prop where
  any : n.nodes (-1) = none
  phase : ∀ q a, n.nodes q = some a → Phase n.log (n.awake q) q a.ipc a.again
  nodup : ∀ t, (n.senders t).Nodup
  link : ∀ t q, q ∈ n.senders t ↔ n.target q = some t
  asked : ∀ q a t ptr, n.nodes q = some a → a.ipc = .receivingReply t ptr →
    Heard n.log q t ∨ ∃ m, Open n.log q t m ∧ n.Holds t m
  patient : ∀ q a src ptr, n.nodes q = some a → a.ipc = .receiving src ptr → ∀ s ∈ a.senders, accepts src s = false
  books : ∀ p q, sentTo n.log p q = gotBy n.log p q ++ n.inFlight p q
  source : ∀ p q m, .sent p q m ∈ n.log → m.source = p
  filter : ∀ q f m, .received q f m ∈ n.log → accepts f m.source = true
  answer : ∀ p q m pre post, n.log = pre ++ .replied p q m :: post → Answered pre p q m

theorem NetInv.index {n : Net} (hn : NetInv n) : Indexed n.senders n.target := ⟨hn.nodup, hn.link⟩

/-- What the event says is as it should be, `log` being what happened before. -/
def Event.Fair (log : List Event) : Event → Prop
  | .sent p _ m => m.source = p
  | .received _ f m => accepts f m.source = true
  | .replied p q m => Answered log p q m
  | .injected _ _ => True

/-! ## The history grows -/

section Log
variable {log es : List Event} {p q : Pid} {m : Message} {P P' : Message → List Event → Prop}

theorem Since.append (h : Since log p q P) (he : ∀ e ∈ es, e.actor ≠ p)
    (hP : ∀ m b, P m b → P' m (b ++ es)) : Since (log ++ es) p q P' := by
  obtain ⟨a, m, b, hlog, hb, hm⟩ := h
  refine ⟨a, m, b ++ es, by rw [hlog, append_assoc, cons_append], fun e hmem => ?_, hP m b hm⟩
  rcases mem_append.mp hmem with h | h
  · exact hb e h
  · exact he e h

theorem Open.append (h : Open log p q m) (he : ∀ e ∈ es, e.actor ≠ p) : Open (log ++ es) p q m :=
  Since.append h he fun _ _ h => h

theorem Heard.append (h : Heard log p q) (he : ∀ e ∈ es, e.actor ≠ p) : Heard (log ++ es) p q :=
  Since.append h he fun _ _ ⟨f, hf⟩ => ⟨f, mem_append_left _ hf⟩

theorem Answered.append (h : Answered log p q m) (he : ∀ e ∈ es, e.actor ≠ p) : Answered (log ++ es) p q m :=
  Since.append h he fun _ b ⟨f, hf⟩ => ⟨f, hf.trans (sublist_append_left b es)⟩

theorem Open.sent (log : List Event) (p q : Pid) (m : Message) : Open (log ++ [.sent p q m]) p q m :=
  ⟨log, m, [], rfl, nofun, rfl⟩

theorem Open.heard {f : Pid} (h : Open log p q m) (hne : q ≠ p) : Heard (log ++ [.received q f m]) p q := by
  refine Since.append h (fun e he => ?_) fun m' b hm => ⟨f, ?_⟩
  · rw [mem_singleton.mp he]
    exact hne
  · rw [hm]
    exact mem_append_right _ (.head _)

theorem Heard.answered (h : Heard log p q) (hne : q ≠ p) : Answered (log ++ [.sent q p m]) p q m := by
  refine Since.append h (fun e he => ?_) fun req b ⟨f, hf⟩ => ⟨f, ?_⟩
  · rw [mem_singleton.mp he]
    exact hne
  · exact (singleton_sublist.mpr hf).append (List.Sublist.refl _)

theorem Phase.append {w w' : Prop} {i : IpcState} {c : Option Call} (h : Phase log w q i c) (hw : w' ↔ w)
    (he : ∀ e ∈ es, e.actor ≠ q) : Phase (log ++ es) w' q i c := by
  cases h with
  | idle => exact .idle
  | sending hs hm ht hc ho => exact .sending (mt hw.mp hs) hm ht hc (ho.append he)
  | receiving hs => exact .receiving (mt hw.mp hs)
  | receivingReply hs ht => exact .receivingReply (mt hw.mp hs) ht
  | received hw' ha => exact .received (hw.mpr hw') ha
  | replied hw' ha => exact .replied (hw.mpr hw') (ha.append he)
  | sent hw' => exact .sent (hw.mpr hw')

end Log

/-! ## Steps that touch two processes -/

namespace Net
section Touch
variable {n n' : Net} {me o p q t : Pid} {a a' b b' : Node} {es : List Event}

@[simp] theorem nodes_put_self : (n.put q a).nodes q = some a := update_self ..
theorem nodes_put_of_ne (h : p ≠ q) : (n.put q a).nodes p = n.nodes p := update_of_ne h ..

theorem nodes_put : (n.put q a).nodes p = if p = q then some a else n.nodes p := update_apply ..

theorem view_of {β : Type} {d : β} {f : Node → β} (h : n.nodes q = some a) : n.view d f q = f a := by
  rw [view, h]
  rfl

/-- The step is one of `me`, and changes no process but `me` and `o`. -/
structure Touches (n n' : Net) (me o : Pid) (es : List Event) : Prop where
  nodes : ∀ q, q ≠ me → q ≠ o → n'.nodes q = n.nodes q
  awake : ∀ q, q ≠ me → q ≠ o → (n'.awake q ↔ n.awake q)
  log : n'.log = n.log ++ es
  actor : ∀ e ∈ es, e.actor = me

theorem Touches.actor_ne (h : Touches n n' me o es) (hq : q ≠ me) : ∀ e ∈ es, e.actor ≠ q :=
  fun e he => (h.actor e he).symm ▸ hq.symm

/-- Such a step, with what it makes of the two. -/
structure Turns (n n' : Net) (me o : Pid) (a a' b b' : Node) (es : List Event) : Prop
    extends Touches n n' me o es where
  me_old : n.nodes me = some a
  o_old : n.nodes o = some b
  me_new : n'.nodes me = some a'
  o_new : n'.nodes o = some b'

/-- What a step leaves as it is of the two processes, it leaves as it is. -/
theorem Turns.view {β : Type} {d : β} {f : Node → β} (h : Turns n n' me o a a' b b' es) (hme : q = me → f a' = f a)
    (ho : q = o → f b' = f b) : n'.view d f q = n.view d f q := by
  by_cases h1 : q = me
  · rw [h1, view_of h.me_new, view_of h.me_old, hme h1]
  by_cases h2 : q = o
  · rw [h2, view_of h.o_new, view_of h.o_old, ho h2]
  · rw [Net.view, Net.view, h.nodes q h1 h2]

/-- What holds of the two processes that a step touches, and of the others, holds of all. -/
theorem Turns.each {P : Pid → Node → Prop} (h : Turns n n' me o a a' b b' es) (hme : P me a') (ho : P o b')
    (hold : ∀ q c, q ≠ me → q ≠ o → n.nodes q = some c → P q c) (q : Pid) (c : Node) (hq : n'.nodes q = some c) :
    P q c := by
  by_cases h1 : q = me
  · rw [h1, h.me_new] at hq
    cases hq
    exact h1 ▸ hme
  by_cases h2 : q = o
  · rw [h2, h.o_new] at hq
    cases hq
    exact h2 ▸ ho
  · exact hold q c h1 h2 ((h.nodes q h1 h2).symm.trans hq)

section
variable (h : Touches n n' me o es) (hn : NetInv n)
include h hn

/-- Who waits for a reply of a third process still does; one that `me` or `o` was about to receive was received. -/
theorem Touches.asked (hheld : ∀ t m, t = me ∨ t = o → n.Holds t m → n'.Holds t m ∨ ∃ f, es = [.received t f m])
    {ptr : Nat} (h1 : q ≠ me) (hq : n.nodes q = some a) (hi : a.ipc = .receivingReply t ptr) : n'.Asked q t := by
  have hact := h.actor_ne h1
  rcases hn.asked q a t ptr hq hi with hh | ⟨m, hopen, hholds⟩
  · exact .inl (h.log ▸ hh.append hact)
  · by_cases ht : t = me ∨ t = o
    · rcases hheld t m ht hholds with hk | ⟨f, hes⟩
      · exact .inr ⟨m, h.log ▸ hopen.append hact, hk⟩
      · -- the request has just been received
        left
        rw [h.log, hes]
        refine hopen.heard fun e => ?_
        have := hact (.received t f m) (by rw [hes]; exact .head _)
        exact this e
    · obtain ⟨b, src, ptr', hb, hbi, hba⟩ := hholds
      refine .inr ⟨m, h.log ▸ hopen.append hact, b, src, ptr', ?_, hbi, hba⟩
      rw [h.nodes t (fun e => ht (.inl e)) (fun e => ht (.inr e))]
      exact hb

/-- What leaves the flight arrives, and what is sent takes off. -/
theorem Touches.books (hnew : ∀ p q, n.inFlight p q ++ sentTo es p q = gotBy es p q ++ n'.inFlight p q) (p q : Pid) :
    sentTo n'.log p q = gotBy n'.log p q ++ n'.inFlight p q := by
  have hs : sentTo n'.log p q = sentTo n.log p q ++ sentTo es p q := by
    rw [h.log]
    exact filterMap_append
  have hg : gotBy n'.log p q = gotBy n.log p q ++ gotBy es p q := by
    rw [h.log]
    exact filterMap_append
  calc sentTo n'.log p q = gotBy n.log p q ++ (n.inFlight p q ++ sentTo es p q) := by
        rw [hs, hn.books, append_assoc]
    _ = gotBy n'.log p q ++ n'.inFlight p q := by rw [hnew, hg, append_assoc]

theorem Touches.answer (hone : es.length ≤ 1) (hnew : ∀ p q m, .replied p q m ∈ es → Answered n.log p q m)
    (p q : Pid) (m : Message) (pre post : List Event) (hlog : n'.log = pre ++ .replied p q m :: post) :
    Answered pre p q m := by
  rw [h.log] at hlog
  rcases append_eq_append_iff.mp hlog with ⟨mid, hpre, hes⟩ | ⟨tail, hold, hrest⟩
  · -- it is the only event of the step
    have hmid : mid = [] := by
      rw [hes, length_append, length_cons] at hone
      exact length_eq_zero_iff.mp (by omega)
    rw [hpre, hmid, append_nil]
    exact hnew p q m (by rw [hes]; simp)
  · cases tail with
    | nil =>
      rw [append_nil] at hold
      rw [← hold]
      exact hnew p q m (by rw [← nil_append es, ← hrest]; exact .head _)
    | cons e tail =>
      cases hrest
      exact hn.answer p q m pre tail hold

end

/-- What a step must do to the two processes to keep the books. -/
theorem Turns.inv (h : Turns n n' me o a a' b b' es) (hn : NetInv n) (hone : es.length ≤ 1)
    (hphase : Phase n'.log (n'.awake me) me a'.ipc a'.again) (hphase' : Phase n'.log (n'.awake o) o b'.ipc b'.again)
    (hindex : Indexed n'.senders n'.target)
    (hheld : ∀ t m, t = me ∨ t = o → n.Holds t m → n'.Holds t m ∨ ∃ f, es = [.received t f m])
    (hask : ∀ t ptr, a'.ipc = .receivingReply t ptr → n'.Asked me t)
    (hask' : ∀ t ptr, b'.ipc = .receivingReply t ptr → n'.Asked o t)
    (hpat : ∀ src ptr, a'.ipc = .receiving src ptr → ∀ s ∈ a'.senders, accepts src s = false)
    (hpat' : ∀ src ptr, b'.ipc = .receiving src ptr → ∀ s ∈ b'.senders, accepts src s = false)
    (hbooks : ∀ p q, n.inFlight p q ++ sentTo es p q = gotBy es p q ++ n'.inFlight p q)
    (hfair : ∀ e ∈ es, e.Fair n.log) : NetInv n' where
  any := by
    have hne : ∀ {q c}, n.nodes q = some c → -1 ≠ q := by
      rintro q c hq rfl
      rw [hn.any] at hq
      cases hq
    rw [h.nodes (-1) (hne h.me_old) (hne h.o_old)]
    exact hn.any
  phase := h.each hphase hphase' fun q c h1 h2 hc => by
    rw [h.log]
    exact (hn.phase q c hc).append (h.awake q h1 h2) (h.actor_ne h1)
  nodup := hindex.nodup
  link := hindex.mem
  asked q c t ptr hc := h.each (hask t ptr)
    (hask' t ptr) (fun q c h1 _ hc hi => h.asked hn hheld h1 hc hi) q c hc
  patient q c src ptr hc := h.each
    (hpat src ptr) (hpat' src ptr) (fun q c _ _ hc => hn.patient q c src ptr hc) q c hc
  books := h.books hn hbooks
  source p q m hm := by
    rw [h.log] at hm
    exact (mem_append.mp hm).elim (hn.source p q m) (hfair _)
  filter q f m hm := by
    rw [h.log] at hm
    exact (mem_append.mp hm).elim (hn.filter q f m) (hfair _)
  answer := h.answer hn hone fun _ _ _ => hfair _

end Touch
end Net
end OpenV.Sched
